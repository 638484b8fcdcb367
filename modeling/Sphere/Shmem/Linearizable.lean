import Sphere.Shmem.Refusals
import Sphere.Shmem.Sharing

/-! In every interleaving the calls of the map take effect one at a time, in the order in
which they leave it, and nothing that they took from the pool is lost. -/

namespace Sphere.Shmem

open Lib Lib.Transition

/-- The semaphore that nobody holds can be had. -/
def Shared.Opened (σ : Shared) : Prop := (∀ q ∈ σ.procs, q.inside = false) → σ.sem = 1

theorem Shared.opened_step [Platform] {σ σ' : Shared} {a : ℕ × Act} (h : σ.Sound ∧ σ.Opened)
    (hstep : σ.step a = some σ') : σ'.Sound ∧ σ'.Opened := by
  obtain ⟨task, inside, hq, hm⟩ := step_move hstep
  refine ⟨h.1.step hstep, ?_⟩
  have hlt : a.1 < σ.procs.length := (List.getElem?_eq_some_iff.mp hq).1
  -- the others, and the process itself before a step that keeps it where it is
  have hback (q' : Proc) (hin : q'.inside = inside)
      (hout : ∀ q ∈ σ.procs.set a.1 q', q.inside = false) : σ.sem = 1 := by
    refine h.2 fun q hqm => ?_
    obtain ⟨p, hp⟩ := List.mem_iff_getElem?.mp hqm
    by_cases hpa : a.1 = p
    · subst hpa
      obtain rfl := Option.some.inj (hq.symm.trans hp)
      rw [← hin]
      exact hout q' (List.mem_set hlt q')
    · exact hout q (List.mem_iff_getElem?.mpr ⟨p, by rwa [List.getElem?_set_ne hpa]⟩)
  cases hm with
  | wait hsem => exact fun hout => absurd (hout _ (List.mem_set hlt _)) (by simp)
  | post =>
    intro _
    have hzero := h.1.locked.closed _ _ hq rfl
    change σ.sem + 1 = 1
    rw [hzero]
  | give inside v hv => exact h.2
  | _ => exact hback _ rfl

namespace Sharing

variable [Platform] {K V : Type} {s s' : Sharing K V} {p : ℕ}

/-! A process is inside exactly while it is in a call. -/

/-- What is left of the call of a process that is in `allocate`. -/
def Pending (running : Option (Running K V)) : Task → Prop
  | .scan size n _ _ | .mark size n _ _ =>
    ∃ r k, running = some r ∧ r.rest = .call (.allocate size n) k
  | _ => True

structure Coherent (s : Sharing K V) : Prop where
  sound : s.shared.Sound
  inside : ∀ (p : ℕ) (q : Proc), s.shared.procs[p]? = some q → q.inside = (s.running p).isSome
  known : ∀ p, (s.running p).isSome → ∃ q, s.shared.procs[p]? = some q
  pending : ∀ (p : ℕ) (q : Proc), s.shared.procs[p]? = some q → Pending (s.running p) q.task

theorem Coherent.alone (h : Coherent s) {r : Running K V} (hr : s.running p = some r) {p' : ℕ}
    (hne : p' ≠ p) : s.running p' = none := by
  by_contra hr'
  have hsome : (s.running p).isSome := by rw [hr]; rfl
  have hsome' : (s.running p').isSome := Option.isSome_iff_ne_none.mpr hr'
  obtain ⟨q, hq⟩ := h.known p hsome
  obtain ⟨q', hq'⟩ := h.known p' hsome'
  exact hne (h.sound.locked.single p' p q' q hq' hq ((h.inside p' q' hq').trans hsome')
    ((h.inside p q hq).trans hsome))

/-- While the semaphore is free nobody is in a call. -/
theorem Coherent.nobody (h : Coherent s) (hsem : 0 < s.shared.sem) (p : ℕ) :
    s.running p = none := by
  by_contra hr
  have hsome : (s.running p).isSome := Option.isSome_iff_ne_none.mpr hr
  obtain ⟨q, hq⟩ := h.known p hsome
  have := h.sound.locked.closed p q hq ((h.inside p q hq).trans hsome)
  omega

/-- One process has taken a step, and is inside if it is in a call. -/
theorem Coherent.turn (h : Coherent s) {σ : Shared} {q q' : Proc} {r : Option (Running K V)}
    {s' : Sharing K V} (ht : Shared.Turned s.shared σ p q q') (hσ : σ.Sound)
    (hshared : s'.shared = σ) (hrunning : s'.running = Function.update s.running p r)
    (hin : q'.inside = r.isSome) (hpend : Pending r q'.task) : Coherent s' := by
  have hlt : p < s.shared.procs.length := (List.getElem?_eq_some_iff.mp ht.was).1
  have hself : (s.shared.procs.set p q')[p]? = some q' := List.getElem?_set_self hlt
  have hother : ∀ p', p ≠ p' → (s.shared.procs.set p q')[p']? = s.shared.procs[p']? :=
    fun p' hp => List.getElem?_set_ne hp
  refine ⟨hshared ▸ hσ, fun p' x hx => ?_, fun p' hp' => ?_, fun p' x hx => ?_⟩
  · rw [hshared, ht.procs] at hx
    rw [hrunning]
    by_cases hp : p = p'
    · subst hp
      rw [hself] at hx
      obtain rfl := Option.some.inj hx
      rw [Function.update_self, hin]
    · rw [hother p' hp] at hx
      rw [Function.update_of_ne (Ne.symm hp), h.inside p' x hx]
  · rw [hshared, ht.procs]
    rw [hrunning] at hp'
    by_cases hp : p = p'
    · subst hp
      exact ⟨q', hself⟩
    · rw [Function.update_of_ne (Ne.symm hp)] at hp'
      rw [hother p' hp]
      exact h.known p' hp'
  · rw [hshared, ht.procs] at hx
    rw [hrunning]
    by_cases hp : p = p'
    · subst hp
      rw [hself] at hx
      obtain rfl := Option.some.inj hx
      rwa [Function.update_self]
    · rw [hother p' hp] at hx
      rw [Function.update_of_ne (Ne.symm hp)]
      exact h.pending p' x hx

omit [Platform] in
theorem task_eq {q : Proc} (h : s.shared.procs[p]? = some q) : s.task p = some q.task := by
  rw [task, h, Option.map_some]

omit [Platform] in
theorem task_turned {σ : Shared} {q q' : Proc} (h : Shared.Turned s.shared σ p q q') :
    ({ s with shared := σ } : Sharing K V).task p = some q'.task := by
  refine task_eq ?_
  rw [h.procs, List.getElem?_set_self (List.getElem?_eq_some_iff.mp h.was).1]

omit [Platform] in
/-- The process is back from `allocate`, or still in it. -/
theorem allocated_cases {σ : Shared} {q q' : Proc} {size n : ℕ} (task : Task) (r : Running K V)
    (k : Except AllocError Allocation → Body K V (Outcome V))
    (h : Shared.Turned s.shared σ p q q') :
    ∃ r', s.allocated σ p task r size n k = ({ s with shared := σ } : Sharing K V).resume p r' ∧
      r'.op = r.op ∧ r'.pool = (if task = .idle then s.shared.mem else r.pool) ∧
      (q'.task = .idle ∧ r'.rest = k (answer s.shared size n task) ∧
          r'.requests = r.requests ++ [⟨r'.pool, size, n, answer s.shared size n task⟩] ∨
        q'.task ≠ .idle ∧ r'.rest = r.rest ∧ r'.requests = r.requests) := by
  unfold allocated
  dsimp only
  rw [task_turned h]
  by_cases hidle : some q'.task = some Task.idle
  · rw [if_pos hidle]
    exact ⟨_, rfl, rfl, rfl, .inl ⟨Option.some.inj hidle, rfl, rfl⟩⟩
  · rw [if_neg hidle]
    exact ⟨_, rfl, rfl, rfl, .inr ⟨fun he => hidle (congrArg some he), rfl, rfl⟩⟩

/-- Coming back from `allocate` or not, the process is inside. -/
theorem Coherent.allocated (h : Coherent s) {σ : Shared} {q q' : Proc} {task : Task}
    {r : Running K V} {size n : ℕ} {k : Except AllocError Allocation → Body K V (Outcome V)}
    (ht : Shared.Turned s.shared σ p q q') (hσ : σ.Sound) (hin : q'.inside = true)
    (hpend : Pending (some r) q'.task) : Coherent (s.allocated σ p task r size n k) := by
  rcases allocated_cases task r k ht with ⟨r', he, -, -, ⟨hidle, -, -⟩ | ⟨hbusy, hsame, -⟩⟩
  · rw [he]
    refine h.turn ht hσ rfl rfl hin ?_
    rw [hidle]
    trivial
  · rw [he]
    refine h.turn ht hσ rfl rfl hin ?_
    cases htask : q'.task with
    | scan size' n' pos j =>
      rw [htask] at hpend
      obtain ⟨_, k', hr', hk'⟩ := hpend
      obtain rfl := Option.some.inj hr'
      exact ⟨r', k', rfl, hsame.trans hk'⟩
    | mark size' n' pos j =>
      rw [htask] at hpend
      obtain ⟨_, k', hr', hk'⟩ := hpend
      obtain rfl := Option.some.inj hr'
      exact ⟨r', k', rfl, hsame.trans hk'⟩
    | _ => trivial

/-- A step that is not the allocator's. -/
theorem Coherent.between (h : Coherent s) {r r' : Running K V} (hr : s.running p = some r)
    (hne : ∀ size n k, r.rest ≠ .call (.allocate size n) k) (hshared : s'.shared = s.shared)
    (hrunning : s'.running = Function.update s.running p (some r')) : Coherent s' := by
  obtain ⟨q, hq⟩ := h.known p (by rw [hr]; rfl)
  have hin := h.inside p q hq
  have hpend := h.pending p q hq
  rw [hr] at hin hpend
  refine h.turn (.stay hq) h.sound hshared hrunning hin ?_
  cases htask : q.task with
  | scan size n pos k =>
    rw [htask] at hpend
    obtain ⟨_, k, hk, hrest⟩ := hpend
    obtain rfl := Option.some.inj hk
    exact absurd hrest (hne size n k)
  | mark size n pos k =>
    rw [htask] at hpend
    obtain ⟨_, k, hk, hrest⟩ := hpend
    obtain rfl := Option.some.inj hk
    exact absurd hrest (hne size n k)
  | _ => trivial

theorem Coherent.turns [LinearOrder K] {shape : Shape K V} {turn : Turn K V} (h : Coherent s)
    (ht : Turns shape s p turn s') : Coherent s' := by
  cases ht with
  | call op σ hr hσ =>
    obtain ⟨-, ht, -⟩ := Shared.step_wait hσ
    exact h.turn ht (h.sound.step hσ) rfl rfl rfl trivial
  | interrupt op hr => exact ⟨h.sound, h.inside, h.known, h.pending⟩
  | release a σ hr hσ =>
    obtain ⟨inside, ht, -⟩ := Shared.step_free hσ
    have hin := h.inside p _ ht.was
    exact h.turn ht (h.sound.step hσ) rfl (Function.update_eq_self p s.running).symm hin trivial
  | clear rest σ htask hσ =>
    obtain ⟨task, task', inside, new, ht, hgo, -⟩ := Shared.step_go hσ
    rw [task_eq ht.was, Option.some.injEq] at htask
    subst htask
    have hin := h.inside p _ ht.was
    refine h.turn ht (h.sound.step hσ) rfl (Function.update_eq_self p s.running).symm hin ?_
    cases hgo <;> trivial
  | enter r size n k σ hr hrest hσ =>
    obtain ⟨ht, -⟩ := Shared.step_allocate hσ
    refine h.allocated ht (h.sound.step hσ) rfl ?_
    unfold Shared.enter
    split_ifs
    · trivial
    · exact ⟨r, k, rfl, hrest⟩
  | search task r size n k σ hr hrest htask hne hidle hσ =>
    obtain ⟨task, task', inside, new, ht, hgo, -⟩ := Shared.step_go hσ
    rw [task_eq ht.was, Option.some.injEq] at htask
    subst htask
    have hin := h.inside p _ ht.was
    rw [hr] at hin
    refine h.allocated ht (h.sound.step hσ) hin ?_
    have hpend := h.pending p _ ht.was
    rw [hr] at hpend
    cases hgo with
    | look size n pos k =>
      unfold Shared.look
      split_ifs
      · trivial
      all_goals exact hpend
    | write size n pos k => exact hpend
    | _ => trivial
  | deallocate r a k σ hr hrest hσ =>
    obtain ⟨inside, ht, -⟩ := Shared.step_free hσ
    have hin := h.inside p _ ht.was
    rw [hr] at hin
    exact h.turn ht (h.sound.step hσ) rfl rfl hin trivial
  | nodes r k hr hrest =>
    exact h.between hr (fun _ _ _ he => by rw [hrest] at he; cases he) rfl rfl
  | setNodes r ns k hr hrest =>
    exact h.between hr (fun _ _ _ he => by rw [hrest] at he; cases he) rfl rfl
  | leave r out σ σ' hr hrest hσ hσ' =>
    obtain ⟨ht, -⟩ := Shared.step_post hσ'
    have hgiven : σ.Sound ∧ σ.procs = s.shared.procs := by
      split at hσ
      · subst hσ
        exact ⟨h.sound, rfl⟩
      · exact ⟨h.sound.step hσ, (Shared.step_give hσ).1⟩
    obtain ⟨hσs, hprocs⟩ := hgiven
    have ht' : Shared.Turned s.shared σ' p ⟨.idle, true⟩ ⟨.idle, false⟩ :=
      ⟨hprocs ▸ ht.was, hprocs ▸ ht.procs⟩
    exact h.turn ht' (hσs.step hσ') rfl rfl rfl trivial

/-! Requests are refused for a reason. -/

/-- The call has made honest requests, and its search knows what it is past. -/
def Watched (mem : ShMemState) (task : Option Task) (r : Running K V) : Prop :=
  (∀ q ∈ r.requests, q.Honest) ∧ ∀ t, task = some t → Shared.Watches r.pool mem t

structure Excused (s : Sharing K V) : Prop where
  history : ∀ c ∈ s.history, ∀ q ∈ c.requests, q.Honest
  running : ∀ p r, s.running p = some r → Watched s.shared.mem (s.task p) r

/-- The process goes on with another state of its call, and no other one is in a call. -/
theorem Excused.resume (h : Excused s) {r : Running K V}
    (hrunning : s'.running = Function.update s.running p (some r))
    (halone : ∀ p', p' ≠ p → s.running p' = none) (hhist : s'.history = s.history)
    (hw : Watched s'.shared.mem (s'.task p) r) : Excused s' := by
  refine ⟨hhist ▸ h.history, fun p' r' hr => ?_⟩
  rw [hrunning] at hr
  by_cases hp : p' = p
  · subst hp
    rw [Function.update_self] at hr
    obtain rfl := Option.some.inj hr
    exact hw
  · rw [Function.update_of_ne hp, halone p' hp] at hr
    cases hr

/-- A process that is in no call, or in one that frees, leaves the searches of the others what
they are. -/
theorem Excused.same (h : Excused s) {σ : Shared} {q q' : Proc}
    (ht : Shared.Turned s.shared σ p q q') (hfree : Shared.Freer s.shared.mem σ.mem)
    (hown : ∀ pool, Shared.Watches pool σ.mem q'.task) :
    Excused ({ s with shared := σ } : Sharing K V) := by
  refine ⟨h.history, fun p' r hr => ⟨(h.running p' r hr).1, fun t htask => ?_⟩⟩
  by_cases hp : p' = p
  · subst hp
    rw [task_turned ht] at htask
    obtain rfl := Option.some.inj htask
    exact hown _
  · refine ((h.running p' r hr).2 t ?_).freer hfree
    rw [← htask, task, task, ht.procs, List.getElem?_set_ne (Ne.symm hp)]

theorem Excused.allocated (h : Excused s) {σ : Shared} {q q' : Proc} {task : Task}
    {r : Running K V} {size n : ℕ} {k : Except AllocError Allocation → Body K V (Outcome V)}
    (hr : s.running p = some r) (halone : ∀ p', p' ≠ p → s.running p' = none)
    (ht : Shared.Turned s.shared σ p q q')
    (hback : q'.task = .idle → Request.Honest ⟨if task = .idle then s.shared.mem else r.pool,
      size, n, answer s.shared size n task⟩)
    (hinside : q'.task ≠ .idle →
      Shared.Watches (if task = .idle then s.shared.mem else r.pool) σ.mem q'.task) :
    Excused (s.allocated σ p task r size n k) := by
  rcases allocated_cases task r k ht with ⟨r', he, -, hpool, ⟨hidle, -, hreq⟩ | ⟨hbusy, -, hreq⟩⟩
  · rw [he]
    refine h.resume rfl halone rfl ⟨fun x hx => ?_, fun t htask => ?_⟩
    · rw [hreq, List.mem_append, List.mem_singleton] at hx
      rcases hx with hx | rfl
      · exact (h.running p r hr).1 x hx
      · rw [hpool]
        exact hback hidle
    · obtain rfl := Option.some.inj ((task_turned ht).symm.trans htask)
      rw [hidle]
      trivial
  · rw [he]
    refine h.resume rfl halone rfl ⟨fun x hx => ?_, fun t htask => ?_⟩
    · rw [hreq] at hx
      exact (h.running p r hr).1 x hx
    · obtain rfl := Option.some.inj ((task_turned ht).symm.trans htask)
      rw [hpool]
      exact hinside hbusy

/-- The call goes on without the allocator. -/
theorem Excused.between (h : Excused s) {r r' : Running K V} (hr : s.running p = some r)
    (halone : ∀ p', p' ≠ p → s.running p' = none) (hshared : s'.shared = s.shared)
    (hrunning : s'.running = Function.update s.running p (some r'))
    (hhist : s'.history = s.history) (hpool : r'.pool = r.pool)
    (hreq : r'.requests = r.requests) : Excused s' := by
  refine h.resume hrunning halone hhist ?_
  rw [Watched, hreq, hpool, task, hshared]
  exact h.running p r hr

/-! The calls serve one map. -/

/-- What a call works on that has made these requests. -/
def view (s : Sharing K V) (requests : List Request) : View K V :=
  ⟨s.shared.own, s.nodes, refusals requests⟩

variable [LinearOrder K] {shape : Shape K V} {m : K → Option V}

/-- The calls that are over have made `m`; the one under way will serve it, and when there is
none the nodes stand for it and own all that nobody else was given. -/
structure Serving (m : K → Option V) (s : Sharing K V) : Prop where
  history : History s.history m
  running : ∀ p r, s.running p = some r →
    Program.wp contract (Ends m r.op) r.rest (s.view r.requests)
  resting : (∀ p, s.running p = none) → Rests m 0 s.shared.own s.nodes

omit [Platform] in
/-- The one process in a call goes on with the rest of it. -/
theorem Serving.resume (h : Serving m s) {r : Running K V}
    (hrunning : s'.running = Function.update s.running p (some r))
    (halone : ∀ p', p' ≠ p → s.running p' = none) (hhist : s'.history = s.history)
    (hwp : Program.wp contract (Ends m r.op) r.rest (s'.view r.requests)) : Serving m s' := by
  refine ⟨hhist ▸ h.history, fun p' r' hr => ?_, fun hnone => ?_⟩
  · rw [hrunning] at hr
    by_cases hp : p' = p
    · subst hp
      rw [Function.update_self] at hr
      obtain rfl := Option.some.inj hr
      exact hwp
    · rw [Function.update_of_ne hp, halone p' hp] at hr
      cases hr
  · have hself := hnone p
    rw [hrunning, Function.update_self] at hself
    cases hself

omit [Platform] in
/-- A step that concerns neither the nodes nor the allocations they and the call own. -/
theorem Serving.same (h : Serving m s) (hrunning : s'.running = s.running)
    (hhist : s'.history = s.history) (hown : s'.shared.own = s.shared.own)
    (hnodes : s'.nodes = s.nodes) : Serving m s' := by
  refine ⟨hhist ▸ h.history, fun p r hr => ?_, ?_⟩
  · rw [view, hown, hnodes]
    exact h.running p r (hrunning ▸ hr)
  · rw [hrunning, hown, hnodes]
    exact h.resting

omit [Platform] in
theorem Serving.allocated (h : Serving m s) {σ : Shared} {q q' : Proc} {task : Task}
    {r : Running K V} {size n : ℕ} {k : Except AllocError Allocation → Body K V (Outcome V)}
    (hr : s.running p = some r) (hrest : r.rest = .call (.allocate size n) k)
    (halone : ∀ p', p' ≠ p → s.running p' = none)
    (ht : Shared.Turned s.shared σ p q q')
    (hback : q'.task = .idle → ∀ pool : ShMemState,
      contract.gives (.allocate size n) (s.view r.requests) (answer s.shared size n task)
        (⟨σ.own, s.nodes, refusals (r.requests ++
          [⟨pool, size, n, answer s.shared size n task⟩])⟩ : View K V))
    (hinside : q'.task ≠ .idle → σ.own = s.shared.own) :
    Serving m (s.allocated σ p task r size n k) := by
  have hwp := h.running p r hr
  rcases allocated_cases task r k ht with
    ⟨r', he, hop, -, ⟨hidle, hnext, hreq⟩ | ⟨hbusy, hsame, hreq⟩⟩
  · rw [he]
    rw [hrest] at hwp
    refine h.resume rfl halone rfl ?_
    rw [hop, hnext, hreq]
    exact Program.wp_resume hwp (hback hidle _)
  · rw [he]
    refine h.resume rfl halone rfl ?_
    rw [hop, hsame, hreq]
    change Program.wp _ _ _ (⟨σ.own, s.nodes, _⟩ : View K V)
    rw [hinside hbusy]
    exact hwp

theorem Serving.turns {turn : Turn K V} (h : Serving m s) (hc : Coherent s)
    (ht : Turns shape s p turn s') :
    ∃ m', Serving m' s' := by
  cases ht with
  | call op σ hr hσ =>
    obtain ⟨hsem, -, hown⟩ := Shared.step_wait hσ
    have hnobody := hc.nobody hsem
    refine ⟨m, h.resume rfl (fun p' _ => hnobody p') rfl ?_⟩
    have hrests := h.resting hnobody
    rw [← hown] at hrests
    exact op.body_ends shape hrests
  | interrupt op hr =>
    exact ⟨m, .interrupted p op h.history, h.running, h.resting⟩
  | release a σ hr hσ =>
    obtain ⟨inside, -, hown⟩ := Shared.step_free hσ
    exact ⟨m, h.same rfl rfl hown.symm rfl⟩
  | clear rest σ htask hσ =>
    obtain ⟨task, task', inside, new, ht, hgo, hown⟩ := Shared.step_go hσ
    rw [task_eq ht.was, Option.some.injEq] at htask
    subst htask
    refine ⟨m, h.same rfl rfl ?_ rfl⟩
    cases hgo <;> exact hown.trans (zero_add _)
  | enter r size n k σ hr hrest hσ =>
    obtain ⟨ht, hown⟩ := Shared.step_allocate hσ
    refine ⟨m, h.allocated hr hrest (fun p' => hc.alone hr) ht (fun _ pool => ?_) fun _ => hown⟩
    refine .inr ⟨_, rfl, ?_⟩
    rw [hown, answer_idle, refusals_error]
    rfl
  | search task r size n k σ hr hrest htask hne hbusy hσ =>
    obtain ⟨task, task', inside, new, ht, hgo, hown⟩ := Shared.step_go hσ
    rw [task_eq ht.was, Option.some.injEq] at htask
    subst htask
    have hpend := hc.pending p _ ht.was
    refine ⟨m, h.allocated hr hrest (fun p' => hc.alone hr) ht (fun hidle pool => ?_)
      fun hidle => ?_⟩
    · cases hgo with
      | look size' n' pos k' =>
        refine .inr ⟨_, rfl, ?_⟩
        rw [answer, refusals_error, hown.trans (zero_add _)]
        rfl
      | write size' n' pos k' => cases hidle
      | finish size' n' pos k' =>
        obtain ⟨_, k'', hk, hcall⟩ := hpend
        obtain rfl := Option.some.inj (hr.symm.trans hk)
        cases hrest.symm.trans hcall
        refine .inl ⟨_, rfl, rfl, rfl, ?_⟩
        rw [answer, refusals_ok, hown]
        rfl
      | clear start len => cases hidle
      | cleared start => exact absurd rfl (hne _)
    · cases hgo with
      | finish size' n' pos k' => exact absurd rfl hidle
      | _ => exact hown.trans (zero_add _)
  | deallocate r a k σ hr hrest hσ =>
    obtain ⟨inside, -, hown⟩ := Shared.step_free hσ
    have hown : s.shared.own = {a} + σ.own := hown
    have hwp := h.running p r hr
    rw [hrest] at hwp
    refine ⟨m, h.resume rfl (fun p' => hc.alone hr) rfl (Program.wp_resume hwp ?_)⟩
    change (⟨σ.own, s.nodes, _⟩ : View K V) = ⟨s.shared.own.erase a, s.nodes, _⟩
    rw [hown, Multiset.singleton_add, Multiset.erase_cons_head]
    rfl
  | nodes r k hr hrest =>
    have hwp := h.running p r hr
    rw [hrest] at hwp
    exact ⟨m, h.resume rfl (fun p' => hc.alone hr) rfl (Program.wp_resume hwp ⟨rfl, rfl⟩)⟩
  | setNodes r ns k hr hrest =>
    have hwp := h.running p r hr
    rw [hrest] at hwp
    exact ⟨m, h.resume rfl (fun p' => hc.alone hr) rfl (Program.wp_resume hwp rfl)⟩
  | leave r out σ σ' hr hrest hσ hσ' =>
    obtain ⟨-, hown'⟩ := Shared.step_post hσ'
    have hwp := h.running p r hr
    rw [hrest] at hwp
    obtain ⟨m', hs, hrests⟩ := hwp
    have hgiven : s.shared.own = out.owned + σ'.own := by
      rw [hown']
      cases out with
      | value o =>
        rw [show (Outcome.value o).buffer = o.buffer from rfl] at hσ
        change _ = o.owned + _
        unfold Object.owned
        split at hσ
        · next hb =>
          rw [hb, hσ]
          exact (zero_add _).symm
        · next a hb =>
          rw [hb]
          exact (Shared.step_give hσ).2
      | _ => rw [show σ = s.shared from hσ]; exact (zero_add _).symm
    have hnone : ∀ p', Function.update s.running p none p' = none := by
      intro p'
      by_cases hp : p' = p
      · rw [hp, Function.update_self]
      · rw [Function.update_of_ne hp, hc.alone hr hp]
    refine ⟨m', .served ⟨p, r.op, out, r.requests⟩ h.history hs, fun p' r' hr' => ?_,
      fun _ => ⟨hrests.ordered, ?_, hrests.contents⟩⟩
    · cases (hnone p').symm.trans hr'
    · have hall : out.owned + σ'.own = out.owned + owned s.nodes := hgiven ▸ hrests.own
      exact (add_left_cancel hall).trans (zero_add _).symm

theorem Excused.turns {turn : Turn K V} (h : Excused s) (hc : Coherent s)
    (ht : Turns shape s p turn s') : Excused s' := by
  cases ht with
  | call op σ hr hσ =>
    obtain ⟨hsem, hturn, -⟩ := Shared.step_wait hσ
    refine h.resume rfl (fun p' _ => hc.nobody hsem p') rfl ⟨nofun, fun t htask => ?_⟩
    obtain rfl := Option.some.inj ((task_turned hturn).symm.trans htask)
    trivial
  | interrupt op hr =>
    refine ⟨fun c hcm => ?_, h.running⟩
    rcases List.mem_append.mp hcm with hcm | hcm
    · exact h.history c hcm
    · rw [List.mem_singleton.mp hcm]
      nofun
  | release a σ hr hσ =>
    obtain ⟨inside, hturn, -⟩ := Shared.step_free hσ
    obtain ⟨task, inside', hq, hm⟩ := Shared.step_move hσ
    cases hturn.was.symm.trans hq
    refine h.same hturn ?_ fun _ => trivial
    exact (Shared.freer_move hm).resolve_right (by simp)
  | clear rest σ htask hσ =>
    obtain ⟨task, task', inside, new, hturn, hgo, -⟩ := Shared.step_go hσ
    obtain ⟨t, inside', hq, hm⟩ := Shared.step_move hσ
    rw [task_eq hturn.was, Option.some.injEq] at htask
    subst htask
    cases hturn.was.symm.trans hq
    refine h.same hturn ((Shared.freer_move hm).resolve_right (by simp)) fun pool => ?_
    cases hgo <;> trivial
  | enter r size n k σ hr hrest hσ =>
    obtain ⟨hturn, -⟩ := Shared.step_allocate hσ
    obtain ⟨task, inside', hq, hm⟩ := Shared.step_move hσ
    cases hturn.was.symm.trans hq
    refine h.allocated hr (fun p' => hc.alone hr) hturn (fun hidle => ?_) fun _ => ?_
    · rw [if_pos rfl, answer_idle]
      by_cases hsize : s.shared.mem.blockSize = 0
      · rw [if_pos hsize]
        exact .inl hsize
      · rw [if_neg hsize]
        unfold Shared.enter at hidle
        split_ifs at hidle with hlarge
        exact hlarge.resolve_left hsize
    · rw [if_pos rfl]
      exact Shared.Watches.enter.freer ((Shared.freer_move hm).resolve_right (by simp))
  | search task r size n k σ hr hrest htask hne hbusy hσ =>
    obtain ⟨task, task', inside, new, hturn, hgo, -⟩ := Shared.step_go hσ
    obtain ⟨t, inside', hq, hm⟩ := Shared.step_move hσ
    rw [task_eq hturn.was, Option.some.injEq] at htask
    subst htask
    cases hturn.was.symm.trans hq
    have hw := (h.running p r hr).2 task (task_eq hturn.was)
    have hfit := hc.sound.fits p _ hturn.was
    refine h.allocated hr (fun p' => hc.alone hr) hturn (fun hidle => ?_) fun _ => ?_
    · rw [if_neg hbusy]
      cases hgo with
      | look size' n' pos k' =>
        -- the call's request is the one that the search is for
        obtain ⟨_, k'', hk, hcall⟩ := hc.pending p _ hturn.was
        obtain rfl := Option.some.inj (hr.symm.trans hk)
        cases hrest.symm.trans hcall
        exact .inr (hw.not_hasRun hfit hidle)
      | write size' n' pos k' => cases hidle
      | finish size' n' pos k' => trivial
      | clear start len => cases hidle
      | cleared start => exact absurd rfl (hne _)
    · rw [if_neg hbusy]
      cases hgo with
      | look size' n' pos k' =>
        exact (hw.look hfit).freer ((Shared.freer_move hm).resolve_right (by simp))
      | _ => trivial
  | deallocate r a k σ hr hrest hσ =>
    obtain ⟨inside, hturn, -⟩ := Shared.step_free hσ
    refine h.resume rfl (fun p' => hc.alone hr) rfl
      ⟨(h.running p r hr).1, fun t htask => ?_⟩
    obtain rfl := Option.some.inj ((task_turned hturn).symm.trans htask)
    trivial
  | nodes r k hr hrest => exact h.between hr (fun p' => hc.alone hr) rfl rfl rfl rfl rfl
  | setNodes r ns k hr hrest => exact h.between hr (fun p' => hc.alone hr) rfl rfl rfl rfl rfl
  | leave r out σ σ' hr hrest hσ hσ' =>
    refine ⟨fun c hcm => ?_, fun p' r' hr' => ?_⟩
    · rcases List.mem_append.mp hcm with hcm | hcm
      · exact h.history c hcm
      · rw [List.mem_singleton.mp hcm]
        exact (h.running p r hr).1
    · have hnone : Function.update s.running p none p' = none := by
        by_cases hp : p' = p
        · rw [hp, Function.update_self]
        · rw [Function.update_of_ne hp, hc.alone hr hp]
      cases hnone.symm.trans hr'

/-- What every turn keeps. -/
structure Safe (s : Sharing K V) : Prop where
  coherent : Coherent s
  opened : s.shared.Opened
  serving : ∃ m, Serving m s
  excused : Excused s

theorem Safe.step (h : Safe s) {a : ℕ × Turn K V} (hstep : s.step shape a = some s') :
    Safe s' := by
  have ht := step_turns hstep
  obtain ⟨m, hm⟩ := h.serving
  obtain ⟨acts, hacts⟩ := ht.shared_run
  have hopened := run_preserves (I := fun σ => σ.Sound ∧ σ.Opened)
    (fun _ _ _ h hstep => Shared.opened_step h hstep) ⟨h.coherent.sound, h.opened⟩ hacts
  exact ⟨h.coherent.turns ht, hopened.2, hm.turns h.coherent ht, h.excused.turns h.coherent ht⟩

theorem safe_start {mem : ShMemState} (count : ℕ) (hspans : mem.Spans)
    (hfree : mem.usedBlocksTable = List.replicate mem.blocksCount FREE_BLOCK) :
    Safe (start mem count : Sharing K V) := by
  have hidle : ∀ (p : ℕ) (q : Proc),
      (start mem count : Sharing K V).shared.procs[p]? = some q → q = ⟨.idle, false⟩ :=
    fun p q hq => List.eq_of_mem_replicate (List.mem_of_getElem? hq)
  refine ⟨⟨Shared.sound_start count hspans hfree, fun p q hq => ?_, nofun, fun p q hq => ?_⟩,
    fun _ => rfl, ⟨fun _ => none, .nil, nofun, fun _ => ⟨List.Pairwise.nil, rfl, rfl⟩⟩,
    nofun, nofun⟩
  · rw [hidle p q hq]
    rfl
  · rw [hidle p q hq]
    trivial

theorem Safe.reached {mem : ShMemState} {count : ℕ} {acts : List (ℕ × Turn K V)}
    (hspans : mem.Spans)
    (hfree : mem.usedBlocksTable = List.replicate mem.blocksCount FREE_BLOCK)
    (hrun : run (Sharing.step shape) (start mem count) acts = some s) : Safe s :=
  run_preserves (fun _ _ _ h hstep => h.step hstep) (safe_start count hspans hfree) hrun

/-! Calls fail for want of the semaphore where `sem_wait` did. -/

/-- The call that is over without having had the semaphore. -/
def unserved (c : Done K V) : Option (ℕ × Op K V) :=
  match c.outcome with
  | .semaphoreError => some (c.process, c.op)
  | _ => none

omit [Platform] in
theorem Serves.unserved {refused : List AllocError} {m m' : K → Option V} {op : Op K V}
    {out : Outcome V} (h : Serves refused m op out m') (p : ℕ) (requests : List Request) :
    unserved ⟨p, op, out, requests⟩ = none := by
  cases h <;> rfl

end Sharing

open scoped Gnu

def goes (p n : ℕ) : List (ℕ × Turn ℕ (List UInt8)) := List.replicate n (p, .go)

end Sphere.Shmem
