import Sphere.Net.Service
import Sphere.Proc.Descriptors
import Sphere.Tcp.Exact

/-! `Connection`, `NonBlockConnection` and `Server` over their sockets: how they are opened,
accepted, moved and closed. An operation is a row of calls of `Descriptor`, on the socket of
the object and on one that a function has on its stack. Every outcome of a system call is an
input. -/

namespace Sphere.Tcp

open Lib Proc

/-- The class has the text of `prc::Descriptor`; what its functions do is a step of `Memory`. -/
abbrev Descriptor := Proc.Descriptor

structure Address where
  address : String := ""
  port : UInt16 := 0
  deriving DecidableEq, Repr

/-- What the functions throw; `accept` tells its errors apart by `errno`. -/
inductive Error
  | address (what : What) (addr : Address)
  | socket (what : What)
  | socketOption (what : What) (option : String)
  | accept (e : Net.TcpError)
  deriving DecidableEq, Repr

inductive Kind
  | connection
  | nonBlock
  | server
  deriving DecidableEq, Repr

/-- The socket that a function has on its stack. -/
def onStack : ℕ := 0

/-- The `socket_` of the object at the address. -/
def socket_ (p : ℕ) : ℕ := p + 1

/-- The result of a call that gives out a number, as C has it. -/
def result : Except ℕ ℕ → ℤ
  | .ok fd => fd
  | .error _ => -1

/-- What a function does to the sockets, and what it throws behind that. -/
structure Made where
  calls : List Call
  thrown : Option Error := none

/-- A new socket goes to the object once everything has been done with it; until then its
destructor closes it. -/
def opening (p : ℕ) (addr : Address) (aton : Bool) (socket : Except ℕ ℕ)
    (failure : Option Error) : Made :=
  if aton then
    match socket, failure with
    | .error errno, _ =>
      ⟨[.construct onStack (result socket), .destroy onStack], some (.socket (.strerror errno))⟩
    | .ok _, some e => ⟨[.construct onStack (result socket), .destroy onStack], some e⟩
    | .ok _, none =>
      ⟨[.construct onStack (result socket), .moveAssign (socket_ p) onStack, .destroy onStack],
        none⟩
  else ⟨[], some (.address (.text "incorrect address") addr)⟩

/-- What `inet_aton`, `::socket` and `::connect` answer, a failure with its `errno`. -/
structure Connecting where
  aton : Bool := true
  socket : Except ℕ ℕ
  connect : Option ℕ := none

def Connection.connect (p : ℕ) (addr : Address) (k : Connecting) : Made :=
  opening p addr k.aton k.socket (k.connect.map fun errno => .address (.strerror errno) addr)

/-- The same, and `setsockopt` and `::bind`. -/
structure Listening where
  aton : Bool := true
  socket : Except ℕ ℕ
  reuseaddr : Option ℕ := none
  bind : Option ℕ := none
  listen : Option ℕ := none

def Server.listen (p : ℕ) (addr : Address) (k : Listening) : Made :=
  opening p addr k.aton k.socket
    ((k.reuseaddr.map fun errno => .socketOption (.strerror errno) "SO_REUSEADDR") <|>
      (k.bind.map fun errno => .address (.strerror errno) addr) <|>
      k.listen.map fun errno => .address (.strerror errno) addr)

/-- A constructor: the socket of an object that is not made is destroyed with its base. -/
def constructing (p : ℕ) (made : Made) : Made :=
  { made with
    calls := .default (socket_ p) :: made.calls ++
      if made.thrown = none then [] else [.destroy (socket_ p)] }

/-- `accept` and `accept_non_block`, which make different objects of what they are given. -/
def Server.accept (p : ℕ) (client : Except ℕ ℕ) : Made :=
  match client with
  | .error errno => ⟨[], some (.accept (Net.acceptError errno))⟩
  | .ok _ =>
    ⟨[.construct onStack (result client), .default (socket_ p), .moveAssign (socket_ p) onStack,
      .destroy onStack], none⟩

/-- The objects by their addresses, without their sockets. -/
structure Endpoints where
  bases : ℕ → Option (Kind × Address)
  memory : Memory
  thrown : Option Error

/-- `accept` has the address of the peer from the kernel, its port as it stands in there, which
is in network byte order. -/
inductive Op
  | connection (p : ℕ) (addr : Address) (k : Connecting)
  | server (p : ℕ) (addr : Address) (k : Listening)
  | connect (p : ℕ) (addr : Address) (k : Connecting)
  | listen (p : ℕ) (addr : Address) (k : Listening)
  | accept (server p : ℕ) (client : Except ℕ ℕ) (peer : Address)
  | acceptNonBlock (server p : ℕ) (client : Except ℕ ℕ) (peer : Address)
  | moveConstruct (p other : ℕ)
  | moveAssign (p other : ℕ)
  | close (p : ℕ)
  | destroy (p : ℕ)

/-- The objects that an operation is asked to change. -/
def Op.changes : Op → List ℕ
  | .connection p _ _ | .server p _ _ | .connect p _ _ | .listen p _ _ | .accept _ p _ _
  | .acceptNonBlock _ p _ _ | .close p | .destroy p => [p]
  | .moveConstruct p other | .moveAssign p other => [p, other]

namespace Endpoints

def start : Endpoints := ⟨fun _ => none, Memory.start, none⟩

def put (σ : Endpoints) (p : ℕ) (b : Option (Kind × Address)) : Endpoints :=
  { σ with bases := Function.update σ.bases p b }

def make (σ : Endpoints) (made : Made) : Option Endpoints :=
  (Transition.run Memory.step σ.memory made.calls).map fun memory =>
    { σ with memory, thrown := made.thrown }

/-- An object is there if its constructor has not thrown. -/
def create (σ : Endpoints) (p : ℕ) (b : Kind × Address) (made : Made) : Option Endpoints :=
  if σ.bases p = none then
    (σ.make made).map fun σ' => σ'.put p (if made.thrown = none then some b else none)
  else none

/-- A function of one of the classes. -/
def use (σ : Endpoints) (kind : Kind) (p : ℕ) (made : Made) : Option Endpoints :=
  if (σ.bases p).map Prod.fst = some kind then σ.make made else none

def step (σ : Endpoints) : Op → Option Endpoints
  | .connection p addr k =>
    σ.create p (.connection, addr) (constructing p (Connection.connect p addr k))
  | .server p addr k => σ.create p (.server, addr) (constructing p (Server.listen p addr k))
  | .connect p addr k => σ.use .connection p (Connection.connect p addr k)
  | .listen p addr k => σ.use .server p (Server.listen p addr k)
  | .accept server p client peer =>
    if (σ.bases server).map Prod.fst = some .server then
      σ.create p (.connection, peer) (Server.accept p client)
    else none
  | .acceptNonBlock server p client peer =>
    if (σ.bases server).map Prod.fst = some .server then
      σ.create p (.nonBlock, peer) (Server.accept p client)
    else none
  | .moveConstruct p q =>
    (σ.bases q).bind fun other =>
      (σ.create p other ⟨[.moveConstruct (socket_ p) (socket_ q)], none⟩).map fun σ' =>
        σ'.put q (some (other.1, {}))
  | .moveAssign p q =>
    (σ.bases q).bind fun other =>
      (σ.use other.1 p ⟨[.moveAssign (socket_ p) (socket_ q)], none⟩).map fun σ' =>
        -- the text of an address is gone behind a move to itself, its port is not
        (σ'.put q (some (other.1, {}))).put p
          (some (other.1, if p = q then { other.2 with address := "" } else other.2))
  | .close p =>
    (σ.bases p).bind fun b =>
      (σ.make ⟨[.close (socket_ p)], none⟩).map fun σ' =>
        -- a server keeps its address
        σ'.put p (some (b.1, if b.1 = .server then b.2 else {}))
  | .destroy p =>
    if (σ.bases p).isSome then
      (σ.make ⟨[.destroy (socket_ p)], none⟩).map fun σ' => σ'.put p none
    else none

/-- The object is there and its socket has the valid number. -/
def Holds (σ : Endpoints) (p : ℕ) (n : ℤ) : Prop :=
  (σ.bases p).isSome ∧ σ.memory.Holds (socket_ p) n

/-! What the calls of an operation do to the sockets. -/

/-- What a call makes of the objects that it is let to. -/
def effect (o : ℕ → Option Descriptor) : Call → ℕ → Option Descriptor
  | .default p => Function.update o p (some {})
  | .construct p fd | .setFd p fd => Function.update o p (some ⟨fd⟩)
  | .moveConstruct p q | .moveAssign p q =>
    Function.update (Function.update o p (o q)) q (some ⟨-1⟩)
  | .close p => Function.update o p ((o p).map Descriptor.close)
  | .destroy p => Function.update o p none

theorem close_objects {m : Memory} {p : ℕ} {d : Descriptor} (hd : m.objects p = some d) :
    (m.close p d).objects = Function.update m.objects p (some d.close) := by
  unfold Memory.close Descriptor.close
  split_ifs
  · rfl
  · rw [← hd, Function.update_eq_self]

theorem step_objects {m m' : Memory} {c : Call} (h : m.step c = some m') :
    m'.objects = effect m.objects c := by
  cases c with
  | default p =>
    obtain ⟨-, h⟩ := Option.ite_none_right_eq_some.mp h
    obtain rfl := Option.some.inj h
    rfl
  | construct p fd =>
    obtain ⟨-, h⟩ := Option.ite_none_right_eq_some.mp h
    obtain rfl := Option.some.inj h
    exact congrArg (Function.update · p (some ⟨fd⟩)) (Memory.opened_objects m fd)
  | moveConstruct p q =>
    obtain ⟨-, h⟩ := Option.ite_none_right_eq_some.mp h
    obtain ⟨other, hq, rfl⟩ := Option.map_eq_some_iff.mp h
    rw [effect, hq]
    rfl
  | moveAssign p q =>
    obtain ⟨d, hd, h⟩ := Option.bind_eq_some_iff.mp h
    obtain ⟨other, hq, rfl⟩ := Option.map_eq_some_iff.mp h
    rw [close_objects hd] at hq
    rw [effect]
    unfold Memory.put
    rw [close_objects hd]
    by_cases hpq : q = p
    · subst hpq
      simp [Descriptor.invalidate]
    · rw [Function.update_of_ne hpq] at hq
      rw [hq, Function.update_idem]
      rfl
  | setFd p fd =>
    obtain ⟨d, hd, h⟩ := Option.bind_eq_some_iff.mp h
    obtain ⟨-, h⟩ := Option.ite_none_right_eq_some.mp h
    obtain rfl := Option.some.inj h
    have hd' : (m.opened fd).objects p = some d := by rw [Memory.opened_objects, hd]
    rw [effect]
    unfold Memory.put
    rw [close_objects hd', Function.update_idem, Memory.opened_objects]
    rfl
  | close p =>
    obtain ⟨d, hd, rfl⟩ := Option.map_eq_some_iff.mp h
    rw [effect, close_objects hd, hd]
    rfl
  | destroy p =>
    obtain ⟨d, hd, rfl⟩ := Option.map_eq_some_iff.mp h
    rw [effect]
    unfold Memory.erase
    rw [close_objects hd, Function.update_idem]

theorem run_objects {m m' : Memory} {calls : List Call}
    (h : Transition.run Memory.step m calls = some m') :
    m'.objects = calls.foldl effect m.objects := by
  induction calls generalizing m with
  | nil =>
    obtain rfl := Option.some.inj h
    rfl
  | cons c calls ih =>
    obtain ⟨m₁, hstep, hrun⟩ := Transition.run_cons_some h
    rw [ih hrun, step_objects hstep]
    rfl

/-- The object has a new socket, or the function has thrown and left them all as they were. -/
def Gives (o : ℕ → Option Descriptor) (p : ℕ) (made : Made) : Prop :=
  ∃ d, made.calls.foldl effect o =
    if made.thrown = none then Function.update o (socket_ p) (some d) else o

variable {o : ℕ → Option Descriptor}

theorem socket_ne_onStack (p : ℕ) : socket_ p ≠ onStack := Nat.succ_ne_zero p

theorem socket_inj {p q : ℕ} : socket_ p = socket_ q ↔ p = q := Nat.add_right_cancel_iff

theorem stack_closed (h : o onStack = none) (fd : ℤ) :
    [Call.construct onStack fd, .destroy onStack].foldl effect o = o := by
  change Function.update (Function.update o onStack (some ⟨fd⟩)) onStack none = o
  rw [Function.update_idem, ← h, Function.update_eq_self]

/-- What was on the stack is gone, and the object has what it was given. -/
theorem stack_gone (h : o onStack = none) (p : ℕ) (x d : Option Descriptor) :
    Function.update (Function.update (Function.update o onStack x) (socket_ p) d) onStack none =
      Function.update o (socket_ p) d := by
  rw [Function.update_comm (socket_ne_onStack p).symm, Function.update_idem]
  refine Function.update_eq_self_iff.mpr ?_
  rw [Function.update_of_ne (socket_ne_onStack p).symm, h]

theorem stack_moved (h : o onStack = none) (fd : ℤ) (p : ℕ) :
    [Call.construct onStack fd, .moveAssign (socket_ p) onStack, .destroy onStack].foldl effect o =
      Function.update o (socket_ p) (some ⟨fd⟩) := by
  simp only [List.foldl_cons, List.foldl_nil, effect, Function.update_self, Function.update_idem]
  exact stack_gone h p _ _

theorem opening_gives (h : o onStack = none) (p : ℕ) (addr : Address) (aton : Bool)
    (socket : Except ℕ ℕ) (failure : Option Error) :
    Gives o p (opening p addr aton socket failure) := by
  refine ⟨⟨result socket⟩, ?_⟩
  unfold opening
  rcases aton with _ | _
  · rfl
  · rcases socket with errno | fd
    · exact stack_closed h _
    · rcases failure with _ | e
      · exact stack_moved h _ p
      · exact stack_closed h _

theorem constructing_gives (hs : o onStack = none) {p : ℕ} (hp : o (socket_ p) = none)
    {made : Made} (h : ∀ o, o onStack = none → Gives o p made) :
    Gives o p (constructing p made) := by
  have hbase : Function.update o (socket_ p) (some {}) onStack = none := by
    rw [Function.update_of_ne (socket_ne_onStack p).symm, hs]
  obtain ⟨d, hd⟩ := h _ hbase
  refine ⟨d, ?_⟩
  unfold constructing
  rw [List.cons_append, List.foldl_cons, List.foldl_append, effect, hd]
  by_cases hthrown : made.thrown = none
  · simp only [hthrown, if_true, List.foldl_nil, Function.update_idem]
  · simp only [hthrown, if_false, List.foldl_cons, List.foldl_nil, effect, Function.update_idem]
    rw [← hp, Function.update_eq_self]

theorem accept_gives (h : o onStack = none) (p : ℕ) (client : Except ℕ ℕ) :
    Gives o p (Server.accept p client) := by
  refine ⟨⟨result client⟩, ?_⟩
  rcases client with errno | fd
  · rfl
  · -- the object's socket is made behind the one on the stack
    simp only [Server.accept, List.foldl_cons, List.foldl_nil, effect, Function.update_idem,
      Function.update_of_ne (socket_ne_onStack p).symm, Function.update_self, if_true]
    exact stack_gone h p _ _

/-- Between two operations nothing is on the stack, and each object has its socket. -/
structure Paired (o : ℕ → Option Descriptor) (bases : ℕ → Option (Kind × Address)) : Prop where
  stack : o onStack = none
  sockets : ∀ p, (o (socket_ p)).isSome = (bases p).isSome

variable {bases : ℕ → Option (Kind × Address)}

theorem Paired.put (h : Paired o bases) (p : ℕ) {d : Option Descriptor}
    {b : Option (Kind × Address)} (hd : d.isSome = b.isSome) :
    Paired (Function.update o (socket_ p) d) (Function.update bases p b) := by
  refine ⟨?_, fun q => ?_⟩
  · rw [Function.update_of_ne (socket_ne_onStack p).symm, h.stack]
  · by_cases hqp : q = p
    · subst hqp
      rw [Function.update_self, Function.update_self, hd]
    · rw [Function.update_of_ne (mt socket_inj.mp hqp), Function.update_of_ne hqp, h.sockets]

theorem Paired.socket_eq_none (h : Paired o bases) {p : ℕ} (hp : bases p = none) :
    o (socket_ p) = none := by
  have hsocket := h.sockets p
  rwa [hp, Option.isSome_none, Option.isSome_eq_false_iff, Option.isNone_iff_eq_none] at hsocket

/-- What an operation does: it throws and all is as before, or it changes what it is asked to. -/
structure Stepped (σ σ' : Endpoints) (changes : List ℕ) : Prop where
  run : ∃ calls, Transition.run Memory.step σ.memory calls = some σ'.memory
  paired : Paired σ'.memory.objects σ'.bases
  thrown : σ'.thrown ≠ none → σ'.memory.objects = σ.memory.objects ∧ σ'.bases = σ.bases
  frame : ∀ p ∉ changes, σ'.memory.objects (socket_ p) = σ.memory.objects (socket_ p) ∧
    σ'.bases p = σ.bases p

variable {σ σ' : Endpoints} {made : Made}

theorem make_eq (h : σ.make made = some σ') :
    Transition.run Memory.step σ.memory made.calls = some σ'.memory ∧
      σ'.memory.objects = made.calls.foldl effect σ.memory.objects ∧
      σ'.bases = σ.bases ∧ σ'.thrown = made.thrown := by
  obtain ⟨memory, hrun, rfl⟩ := Option.map_eq_some_iff.mp h
  exact ⟨hrun, run_objects hrun, rfl, rfl⟩

/-- One object is changed, and its socket as it is. -/
theorem stepped_one (hpaired : Paired σ.memory.objects σ.bases)
    (hrun : ∃ calls, Transition.run Memory.step σ.memory calls = some σ'.memory) {p : ℕ}
    {d : Option Descriptor} {b : Option (Kind × Address)} (hd : d.isSome = b.isSome)
    (hobjects : σ'.memory.objects = Function.update σ.memory.objects (socket_ p) d)
    (hbases : σ'.bases = Function.update σ.bases p b) (hthrown : σ'.thrown = none) :
    Stepped σ σ' [p] := by
  refine ⟨hrun, ?_, fun h => absurd hthrown h, fun q hq => ?_⟩
  · rw [hobjects, hbases]
    exact hpaired.put p hd
  · have hqp : q ≠ p := by simpa using hq
    rw [hobjects, hbases, Function.update_of_ne (mt socket_inj.mp hqp), Function.update_of_ne hqp]
    exact ⟨rfl, rfl⟩

theorem stepped_none (hpaired : Paired σ.memory.objects σ.bases)
    (hrun : ∃ calls, Transition.run Memory.step σ.memory calls = some σ'.memory)
    (hobjects : σ'.memory.objects = σ.memory.objects) (hbases : σ'.bases = σ.bases)
    (changes : List ℕ) : Stepped σ σ' changes := by
  refine ⟨hrun, ?_, fun _ => ⟨hobjects, hbases⟩, fun q _ => ?_⟩
  · rw [hobjects, hbases]
    exact hpaired
  · rw [hobjects, hbases]
    exact ⟨rfl, rfl⟩

theorem create_stepped (hpaired : Paired σ.memory.objects σ.bases) {p : ℕ} {b : Kind × Address}
    (hgives : σ.bases p = none → Gives σ.memory.objects p made)
    (h : σ.create p b made = some σ') : Stepped σ σ' [p] := by
  obtain ⟨hp, h⟩ := Option.ite_none_right_eq_some.mp h
  obtain ⟨σ₁, hmake, rfl⟩ := Option.map_eq_some_iff.mp h
  obtain ⟨hrun, hobjects, hbases, hthrown⟩ := make_eq hmake
  obtain ⟨d, hd⟩ := hgives hp
  rw [hd] at hobjects
  by_cases hmade : made.thrown = none
  · rw [if_pos hmade] at hobjects ⊢
    apply stepped_one (d := some d) (b := some b) hpaired
    · rfl
    · exact hobjects
    · exact congrArg (Function.update · p (some b)) hbases
    · exact hthrown.trans hmade
    · exact ⟨_, hrun⟩
  · rw [if_neg hmade] at hobjects ⊢
    apply stepped_none hpaired
    · exact ⟨_, hrun⟩
    · exact hobjects
    · change Function.update σ₁.bases p none = σ.bases
      rw [hbases, ← hp, Function.update_eq_self]

theorem use_stepped (hpaired : Paired σ.memory.objects σ.bases) {p : ℕ} {kind : Kind}
    (hgives : Gives σ.memory.objects p made) (h : σ.use kind p made = some σ') :
    Stepped σ σ' [p] := by
  obtain ⟨hkind, h⟩ := Option.ite_none_right_eq_some.mp h
  obtain ⟨b, hb, -⟩ := Option.map_eq_some_iff.mp hkind
  obtain ⟨hrun, hobjects, hbases, hthrown⟩ := make_eq h
  obtain ⟨d, hd⟩ := hgives
  rw [hd] at hobjects
  by_cases hmade : made.thrown = none
  · rw [if_pos hmade] at hobjects
    refine stepped_one (b := some b) hpaired ⟨_, hrun⟩ rfl hobjects ?_ (hthrown.trans hmade)
    rw [hbases, ← hb, Function.update_eq_self]
  · rw [if_neg hmade] at hobjects
    exact stepped_none hpaired ⟨_, hrun⟩ hobjects hbases _

/-- A move gives one socket what the other has, and leaves the other one with nothing. -/
theorem move_stepped (hpaired : Paired σ.memory.objects σ.bases)
    (hrun : ∃ calls, Transition.run Memory.step σ.memory calls = some σ'.memory) {p q : ℕ}
    {b c other : Kind × Address} (hq : σ.bases q = some other)
    (hobjects : σ'.memory.objects = Function.update (Function.update σ.memory.objects (socket_ p)
      (σ.memory.objects (socket_ q))) (socket_ q) (some ⟨-1⟩))
    (hbases : σ'.bases = Function.update (Function.update σ.bases p (some b)) q (some c))
    (hthrown : σ'.thrown = none) : Stepped σ σ' [p, q] := by
  have hother : (σ.memory.objects (socket_ q)).isSome = (some b).isSome := by
    rw [hpaired.sockets q, hq]
    rfl
  refine ⟨hrun, ?_, fun h => absurd hthrown h, fun i hi => ?_⟩
  · rw [hobjects, hbases]
    exact (hpaired.put p hother).put q rfl
  · have hip : i ≠ p := fun heq => hi (heq ▸ List.mem_cons_self)
    have hiq : i ≠ q := fun heq => hi (heq ▸ List.mem_cons_of_mem p List.mem_cons_self)
    rw [hobjects, hbases, Function.update_of_ne (mt socket_inj.mp hiq), Function.update_of_ne
      (mt socket_inj.mp hip), Function.update_of_ne hiq, Function.update_of_ne hip]
    exact ⟨rfl, rfl⟩

theorem step_stepped (hpaired : Paired σ.memory.objects σ.bases) {op : Op}
    (h : σ.step op = some σ') : Stepped σ σ' op.changes := by
  have hstack := hpaired.stack
  cases op with
  | connection p addr k =>
    exact create_stepped hpaired (fun hp => constructing_gives hstack (hpaired.socket_eq_none hp)
      fun o ho => opening_gives ho p addr _ _ _) h
  | server p addr k =>
    exact create_stepped hpaired (fun hp => constructing_gives hstack (hpaired.socket_eq_none hp)
      fun o ho => opening_gives ho p addr _ _ _) h
  | connect p addr k => exact use_stepped hpaired (opening_gives hstack p addr _ _ _) h
  | listen p addr k => exact use_stepped hpaired (opening_gives hstack p addr _ _ _) h
  | accept server p client peer =>
    obtain ⟨-, h⟩ := Option.ite_none_right_eq_some.mp h
    exact create_stepped hpaired (fun _ => accept_gives hstack p client) h
  | acceptNonBlock server p client peer =>
    obtain ⟨-, h⟩ := Option.ite_none_right_eq_some.mp h
    exact create_stepped hpaired (fun _ => accept_gives hstack p client) h
  | moveConstruct p q =>
    obtain ⟨other, hq, h⟩ := Option.bind_eq_some_iff.mp h
    obtain ⟨σ₁, hcreate, rfl⟩ := Option.map_eq_some_iff.mp h
    obtain ⟨-, hmap⟩ := Option.ite_none_right_eq_some.mp hcreate
    obtain ⟨σ₂, hmake, rfl⟩ := Option.map_eq_some_iff.mp hmap
    obtain ⟨hrun, hobjects, hbases, hthrown⟩ := make_eq hmake
    apply move_stepped (b := other) (c := (other.1, {})) hpaired
    · exact hq
    · exact hobjects
    · exact congrArg (fun f => Function.update (Function.update f p (some other)) q _) hbases
    · exact hthrown
    · exact ⟨_, hrun⟩
  | moveAssign p q =>
    obtain ⟨other, hq, h⟩ := Option.bind_eq_some_iff.mp h
    obtain ⟨σ₁, huse, rfl⟩ := Option.map_eq_some_iff.mp h
    obtain ⟨-, hmake⟩ := Option.ite_none_right_eq_some.mp huse
    obtain ⟨hrun, hobjects, hbases, hthrown⟩ := make_eq hmake
    by_cases hpq : p = q
    · subst hpq
      apply move_stepped (b := (other.1, {})) (c := (other.1, { other.2 with address := "" }))
        hpaired
      · exact hq
      · exact hobjects
      · rw [if_pos rfl]
        exact congrArg (fun f => Function.update (Function.update f p _) p _) hbases
      · exact hthrown
      · exact ⟨_, hrun⟩
    · apply move_stepped (b := other) (c := (other.1, {})) hpaired
      · exact hq
      · exact hobjects
      · rw [if_neg hpq, Function.update_comm hpq]
        exact congrArg (fun f => Function.update (Function.update f q _) p _) hbases
      · exact hthrown
      · exact ⟨_, hrun⟩
  | close p =>
    obtain ⟨b, hb, h⟩ := Option.bind_eq_some_iff.mp h
    obtain ⟨σ₁, hmake, rfl⟩ := Option.map_eq_some_iff.mp h
    obtain ⟨hrun, hobjects, hbases, hthrown⟩ := make_eq hmake
    apply stepped_one hpaired (b := some (b.1, if b.1 = .server then b.2 else {}))
      (d := (σ.memory.objects (socket_ p)).map Descriptor.close)
    · rw [Option.isSome_map, hpaired.sockets p, hb]
      rfl
    · exact hobjects
    · exact congrArg (Function.update · p _) hbases
    · exact hthrown
    · exact ⟨_, hrun⟩
  | destroy p =>
    obtain ⟨-, h⟩ := Option.ite_none_right_eq_some.mp h
    obtain ⟨σ₁, hmake, rfl⟩ := Option.map_eq_some_iff.mp h
    obtain ⟨hrun, hobjects, hbases, hthrown⟩ := make_eq hmake
    apply stepped_one (d := none) (b := none) hpaired
    · rfl
    · exact hobjects
    · exact congrArg (Function.update · p none) hbases
    · exact hthrown
    · exact ⟨_, hrun⟩

/-! Whole runs. -/

theorem run_paired {ops : List Op} (h : Transition.run step start ops = some σ) :
    (∃ calls, Transition.run Memory.step Memory.start calls = some σ.memory) ∧
      Paired σ.memory.objects σ.bases := by
  refine Transition.run_preserves (I := fun σ : Endpoints =>
    (∃ calls, Transition.run Memory.step Memory.start calls = some σ.memory) ∧
      Paired σ.memory.objects σ.bases) ?_ ⟨⟨[], rfl⟩, rfl, fun _ => rfl⟩ h
  rintro σ op σ' ⟨⟨calls, hrun⟩, hpaired⟩ hstep
  have hstepped := step_stepped hpaired hstep
  obtain ⟨more, hmore⟩ := hstepped.run
  refine ⟨⟨calls ++ more, ?_⟩, hstepped.paired⟩
  rw [Transition.run_append, hrun]
  exact hmore

variable {n : ℤ}

/-- A socket that holds something is an object's. -/
theorem Paired.holds_iff (h : Paired σ.memory.objects σ.bases) (q : ℕ) :
    σ.memory.Holds q n ↔ ∃ p, q = socket_ p ∧ σ.Holds p n := by
  constructor
  · rintro ⟨d, hd, hn⟩
    rcases q with _ | p
    · rw [← onStack, h.stack] at hd
      cases hd
    · refine ⟨p, rfl, ?_, d, hd, hn⟩
      rw [← h.sockets p, socket_, hd]
      rfl
  · rintro ⟨p, rfl, -, hp⟩
    exact hp

theorem holds_congr {p : ℕ} (hobject : σ'.memory.objects (socket_ p) = σ.memory.objects (socket_ p))
    (hbase : σ'.bases p = σ.bases p) : σ'.Holds p n ↔ σ.Holds p n := by
  unfold Holds Memory.Holds
  rw [hobject, hbase]

/-- The open numbers are those that the objects hold, each of them one; what throws changes no
object, and what does not throw only those that it is asked to change. -/
theorem endpoints_linear {ops : List Op} (h : Transition.run step start ops = some σ) :
    Custody.Orderly σ.memory.events ∧
    (∀ n, Custody.Out σ.memory.events n ↔ ∃ p, σ.Holds p n) ∧
    (∀ p q n, σ.Holds p n → σ.Holds q n → p = q) ∧
    ∀ op σ', σ.step op = some σ' → ∀ p, (σ'.thrown ≠ none ∨ p ∉ op.changes) →
      σ'.bases p = σ.bases p ∧ ∀ n, σ'.Holds p n ↔ σ.Holds p n := by
  obtain ⟨⟨calls, hrun⟩, hpaired⟩ := run_paired h
  obtain ⟨c, hkept, hagrees, hevents⟩ := Memory.run_custody hrun
  have howner : ∀ q n, σ.memory.Holds q n ↔ c.owner n = some (some q) := fun q n =>
    Memory.holds_iff.trans (hagrees (some q) n)
  refine ⟨hevents ▸ hkept.orderly, fun n => ⟨fun hout => ?_, ?_⟩, fun p q n hp hq => ?_, ?_⟩
  · rcases hn : c.owner n with _ | i
    · have hhome := hkept.home hn
      rw [hevents] at hhome
      unfold Custody.Home at hhome
      unfold Custody.Out at hout
      omega
    · rcases i with _ | q
      · exact nomatch (hagrees none n).mpr hn
      · obtain ⟨p, -, hp⟩ := (hpaired.holds_iff q).mp ((howner q n).mpr hn)
        exact ⟨p, hp⟩
  · rintro ⟨p, -, hp⟩
    rw [← hevents]
    exact hkept.out ((howner _ n).mp hp)
  · have hpn := (howner _ n).mp hp.2
    have hqn := (howner _ n).mp hq.2
    exact socket_inj.mp (Option.some.inj (Option.some.inj (hpn.symm.trans hqn)))
  · intro op σ' hstep p hp
    have hstepped := step_stepped hpaired hstep
    have hsame : σ'.memory.objects (socket_ p) = σ.memory.objects (socket_ p) ∧
        σ'.bases p = σ.bases p := by
      rcases hp with hthrown | hframe
      · obtain ⟨hobjects, hbases⟩ := hstepped.thrown hthrown
        rw [hobjects, hbases]
        exact ⟨rfl, rfl⟩
      · exact hstepped.frame p hframe
    exact ⟨hsame.2, fun n => holds_congr hsame.1 hsame.2⟩

/-- A server and a connection that it accepts; another one is connected, is refused once when it
is connected again, then is, and is moved to the first. -/
def moving : List Op :=
  [.server 0 ⟨"127.0.0.1", 8080⟩ { socket := .ok 3 },
    .accept 0 1 (.ok 4) ⟨"127.0.0.1", 50⟩,
    .acceptNonBlock 0 2 (.error Net.EAGAIN) {},
    .connection 2 ⟨"127.0.0.1", 80⟩ { socket := .ok 5 },
    .connect 2 ⟨"127.0.0.1", 1000⟩ { socket := .ok 6, connect := some 111 },
    .connect 2 ⟨"127.0.0.1", 8080⟩ { socket := .ok 6 },
    .moveAssign 1 2,
    .close 0]

theorem endpoints_linear_moving : ∃ σ, Transition.run step start moving = some σ ∧
    σ.memory.events = [.taken 3, .taken 4, .taken 5, .taken 6, .returned 6, .taken 6,
      .returned 5, .returned 4, .returned 3] ∧
    σ.Holds 1 6 ∧ Custody.Out σ.memory.events 6 := by
  have hevents : (Transition.run step start moving).map (fun σ => σ.memory.events) =
      some [.taken 3, .taken 4, .taken 5, .taken 6, .returned 6, .taken 6, .returned 5,
        .returned 4, .returned 3] := by
    decide +kernel
  have hobject : (Transition.run step start moving).bind (fun σ => σ.memory.objects (socket_ 1)) =
      some ⟨6⟩ := by
    decide +kernel
  have hbase : (Transition.run step start moving).bind (fun σ => σ.bases 1) =
      some (.connection, ⟨"127.0.0.1", 80⟩) := by
    decide +kernel
  obtain ⟨σ, hrun, hd⟩ := Option.bind_eq_some_iff.mp hobject
  rw [hrun] at hevents
  rw [hrun, Option.bind_some] at hbase
  have hholds : σ.Holds 1 6 := ⟨by rw [hbase]; rfl, ⟨6⟩, hd, rfl, rfl⟩
  exact ⟨σ, hrun, Option.some.inj hevents, hholds,
    ((endpoints_linear hrun).2.1 6).mpr ⟨1, hholds⟩⟩

end Endpoints
end Sphere.Tcp
