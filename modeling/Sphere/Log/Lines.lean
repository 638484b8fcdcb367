import Sphere.Log.Logger

/-! What is on the devices of the loggers: the messages, whole and line by line, in the order in
which the threads locked the mutex. -/

namespace Sphere.Log

open Lib Lib.Transition

/-- What a device has after the event that had the text before it. -/
def Event.on (o : Out) (text : List Char) : Event → List Char
  | .made (.file i) => if .file i = o then [] else text
  | .line _ o' m _ => if o' = o then text ++ (m ++ ['\n']) else text
  | _ => text

/-- The lines of a device since it was opened last, behind what it had when that was not by an
`init` function. -/
def page (before : List Char) (o : Out) (trace : List Event) : List Char :=
  trace.foldl (Event.on o) before

/-- Each line is for the logger that was set last, and `InstanceError` is thrown before there is
one. -/
inductive Routed : Option Out → List Event → Prop
  | nil : Routed none []
  | made {o : Option Out} {trace : List Event} (o' : Out) :
      Routed o trace → Routed (some o') (trace ++ [.made o'])
  | line {o : Out} {trace : List Event} (p : ℕ) (m : List Char) (l : Level) :
      Routed (some o) trace → Routed (some o) (trace ++ [.line p o m l])
  | threw {trace : List Event} (p : ℕ) : Routed none trace → Routed none (trace ++ [.threw p])

def Event.lineOf (p : ℕ) : Event → Option (List Char)
  | .line q _ m _ => if q = p then some m else none
  | _ => none

/-- The messages of a thread. -/
def linesOf (p : ℕ) (trace : List Event) : List (List Char) := trace.filterMap (Event.lineOf p)

/-- The message that a thread has yet to lock the mutex for. -/
def Place.pending : Place → List (List Char)
  | .waits _ (.log m _) => [m]
  | _ => []

def Work.char : Work → Option Char
  | .put c => some c
  | _ => none

/-- The characters that a thread with the mutex has yet to write. -/
def Place.rest : Place → List Char
  | .inside _ todo => todo.filterMap Work.char
  | _ => []

def BaseLogger.rest (b : BaseLogger) (places : ℕ → Place) (o : Out) : List Char :=
  if b.out = o then b.mutex.elim [] fun p => (places p).rest else []

def Logging.rest (s : Logging) (o : Out) : List Char :=
  s.logger.elim [] fun b => b.rest s.places o

/-- What is left of the body of a call. -/
inductive Tail : List Work → Prop
  | nil : Tail []
  | assign (lev : Level) : Tail [.assign lev]
  | flush : Tail [.flush]
  | put {todo : List Work} (c : Char) : .flush ∈ todo → Tail todo → Tail (.put c :: todo)

theorem Call.body_tail (c : Call) : Tail c.body := by
  cases c with
  | setLevel lev => exact .assign lev
  | flush => exact .flush
  | log m l =>
    simp only [Call.body]
    induction m ++ ['\n'] with
    | nil => exact .flush
    | cons a m ih => exact .put a (by simp) ih

theorem Call.body_rest (c : Call) (n p : ℕ) (o : Out) (text : List Char) :
    text ++ (Place.inside n c.body).rest = page text o (c.lines p o) := by
  cases c with
  | log m l =>
    have hput : ∀ cs : List Char, (cs.map Work.put ++ [Work.flush]).filterMap Work.char = cs := by
      intro cs
      induction cs with
      | nil => rfl
      | cons a cs ih => exact congrArg (a :: ·) ih
    simp only [Place.rest, Call.body, hput, Call.lines, page, List.foldl_cons, List.foldl_nil,
      Event.on, if_true]
  | _ => exact List.append_nil text

namespace Logging

/-- No two threads are behind the `lock_guard`; what a stream was told and what the thread there
has yet to write are the lines of its device, and only its stream has something to flush. -/
structure Kept (before : Out → List Char) (s : Logging) : Prop where
  holder : ∀ p n todo, s.places p = .inside n todo →
    n = s.made ∧ ∃ b, s.logger = some b ∧ b.mutex = some p
  held : ∀ b p, s.logger = some b → b.mutex = some p →
    ∃ todo, s.places p = .inside s.made todo ∧ Tail todo
  carries : ∀ o, s.spoiled o = false → ∃ text, (s.streams o).Carries text ∧
    text ++ s.rest o = page (before o) o s.trace
  empty : ∀ o, (s.streams o).good → (s.streams o).buffer = [] ∨ ∃ b p n todo,
    s.logger = some b ∧ b.out = o ∧ b.mutex = some p ∧ s.places p = .inside n todo ∧
      .flush ∈ todo
  told : ∀ p, s.accepted p = linesOf p s.trace ++ (s.places p).pending
  routed : Routed (s.logger.map (·.out)) s.trace

variable {before : Out → List Char} {s s' : Logging}

theorem Kept.start (before : Out → List Char) : Kept before (start before) where
  holder _ _ _ h := by cases h
  held _ _ h := by cases h
  carries o _ := ⟨before o, .onto _, List.append_nil _⟩
  empty _ _ := .inl rfl
  told _ := rfl
  routed := .nil

/-- A thread goes from one place without the mutex to another one. -/
theorem Kept.moved (h : Kept before s) {p : ℕ} {q : Place}
    (hp : ∀ n todo, s.places p ≠ .inside n todo) (hq : ∀ n todo, q ≠ .inside n todo) {acc}
    (hacc : acc = linesOf p s.trace ++ q.pending) :
    Kept before { s.move p q with accepted := Function.update s.accepted p acc } := by
  have hother : ∀ r n todo, s.places r = .inside n todo → (s.move p q).places r = s.places r := by
    intro r n todo hr
    apply Function.update_of_ne
    rintro rfl
    exact hp n todo hr
  have hrest : ∀ o, (s.move p q).rest o = s.rest o := by
    intro o
    simp only [rest, move, BaseLogger.rest]
    cases hb : s.logger with
    | none => rfl
    | some b =>
      cases hm : b.mutex with
      | none => simp only [Option.elim, hm]
      | some r =>
        obtain ⟨todo, hr, -⟩ := h.held b r hb hm
        simp only [Option.elim, hm]
        rw [show Function.update s.places p q r = s.places r from hother r _ _ hr]
  refine ⟨fun r n todo hr => ?_, fun b r hb hm => ?_, fun o hkept => ?_, fun o hgood => ?_,
    fun r => ?_, h.routed⟩
  · replace hr : Function.update s.places p q r = .inside n todo := hr
    rcases eq_or_ne r p with rfl | hrp
    · rw [Function.update_self] at hr
      exact absurd hr (hq n todo)
    · rw [Function.update_of_ne hrp] at hr
      exact h.holder r n todo hr
  · obtain ⟨todo, hr, ht⟩ := h.held b r hb hm
    exact ⟨todo, (hother r _ _ hr).trans hr, ht⟩
  · obtain ⟨text, hc, htext⟩ := h.carries o hkept
    exact ⟨text, hc, (congrArg (text ++ ·) (hrest o)).trans htext⟩
  · rcases h.empty o hgood with he | ⟨b, r, n, todo, hb, ho, hm, hr, hf⟩
    · exact Or.inl he
    · exact Or.inr ⟨b, r, n, todo, hb, ho, hm, (hother r _ _ hr).trans hr, hf⟩
  · rcases eq_or_ne r p with rfl | hrp
    · simp only [move, Function.update_self, hacc]
    · simp only [move, Function.update_of_ne hrp]
      exact h.told r

/-- What a thread was not let in with does not change. -/
theorem Kept.moves (h : Kept before s) {p : ℕ} {q : Place}
    (hp : ∀ n todo, s.places p ≠ .inside n todo) (hq : ∀ n todo, q ≠ .inside n todo)
    (hpend : (s.places p).pending = q.pending) : Kept before (s.move p q) := by
  have hm := h.moved hp hq ((h.told p).trans (by rw [hpend]))
  rwa [Function.update_eq_self] at hm

theorem Kept.look (h : Kept before s) {b : BaseLogger} {p n : ℕ} {c : Call}
    (hp : s.places p = .has n c) : Kept before (s.look b p c) := by
  have hout : ∀ n todo, s.places p ≠ .inside n todo := by simp [hp]
  have hpend : (s.places p).pending = [] := by rw [hp]; rfl
  cases c with
  | log m l =>
    simp only [Logging.look]
    split_ifs
    · apply h.moved hout (by simp)
      rw [h.told p, hpend, List.append_nil]
      rfl
    · exact h.moves hout (by simp) hpend
  | _ => exact h.moves hout (by simp) hpend

/-- A stream changes, and what it was told does not. -/
theorem Kept.written (h : Kept before s) {o : Out} {stream : OutStream Char}
    (hc : ∀ text, (s.streams o).Carries text → stream.Carries text)
    (he : stream.good → (s.streams o).good ∧ ((s.streams o).buffer = [] → stream.buffer = [])) :
    Kept before (s.write o stream) := by
  refine ⟨h.holder, h.held, fun o' hkept => ?_, fun o' hgood => ?_, h.told, h.routed⟩
  · obtain ⟨text, hcarries, htext⟩ := h.carries o' hkept
    refine ⟨text, ?_, htext⟩
    rcases eq_or_ne o' o with rfl | ho
    · simpa [write] using hc text hcarries
    · simpa [write, ho] using hcarries
  · rcases eq_or_ne o' o with rfl | ho
    · obtain ⟨hgood', hbuf⟩ := he (by simpa [write] using hgood)
      exact (h.empty o' hgood').imp_left fun hnil => by simpa [write] using hbuf hnil
    · exact (h.empty o' (by simpa [write, ho] using hgood)).imp_left fun hnil => by
        simpa [write, ho] using hnil

/-- Nobody has the mutex. -/
theorem Kept.rest_of_unlocked (h : Kept before s) (hm : s.logger.bind (·.mutex) = none) :
    (∀ o, s.rest o = []) ∧ (∀ o, (s.streams o).good → (s.streams o).buffer = []) ∧
      ∀ p n todo, s.places p ≠ .inside n todo := by
  refine ⟨fun o => ?_, fun o hgood => ?_, fun p n todo hp => ?_⟩
  · cases hb : s.logger with
    | none => simp [rest, hb]
    | some b =>
      rw [hb] at hm
      simp only [rest, hb, Option.elim, BaseLogger.rest]
      rw [show b.mutex = none from hm]
      exact ite_self _
  · rcases h.empty o hgood with he | ⟨b, p, n, todo, hb, -, hp, -, -⟩
    · exact he
    · rw [hb] at hm
      exact absurd (hm.symm.trans hp) (by simp)
  · obtain ⟨-, b, hb, hp⟩ := h.holder p n todo hp
    rw [hb] at hm
    exact absurd (hm.symm.trans hp) (by simp)

theorem page_append (text : List Char) (o : Out) (trace more : List Event) :
    page text o (trace ++ more) = page (page text o trace) o more :=
  List.foldl_append

theorem lines_elsewhere {out o : Out} (h : out ≠ o) (c : Call) (p : ℕ) (text : List Char) :
    page text o (c.lines p out) = text := by
  cases c with
  | log m l => simp [page, Call.lines, Event.on, h]
  | _ => rfl

theorem linesOf_append (p : ℕ) (trace more : List Event) :
    linesOf p (trace ++ more) = linesOf p trace ++ linesOf p more :=
  List.filterMap_append

/-- A thread locks the mutex: the rest of its stream is the line of its call. -/
theorem Kept.enter (h : Kept before s) {b : BaseLogger} {p n : ℕ} {c : Call}
    (hb : s.logger = some b) (hfree : b.mutex = none) (hp : s.places p = .waits n c) :
    Kept before (s.enter b p c) := by
  obtain ⟨hrest, hbuf, hout⟩ := h.rest_of_unlocked (by rw [hb]; exact hfree)
  have hplaces : (s.enter b p c).places = Function.update s.places p (.inside s.made c.body) := rfl
  refine ⟨fun r k todo hr => ?_, fun b' r hb' hm => ?_, fun o hkept => ?_,
    fun o hgood => .inl (hbuf o hgood), fun r => ?_, ?_⟩
  · rw [hplaces] at hr
    rcases eq_or_ne r p with rfl | hrp
    · rw [Function.update_self] at hr
      exact ⟨(Place.inside.inj hr).1.symm, _, rfl, rfl⟩
    · rw [Function.update_of_ne hrp] at hr
      exact absurd hr (hout r k todo)
  · obtain rfl := Option.some.inj hb'
    obtain rfl := Option.some.inj hm
    exact ⟨c.body, by rw [hplaces, Function.update_self]; rfl, c.body_tail⟩
  · obtain ⟨text, hc, htext⟩ := h.carries o hkept
    rw [hrest o, List.append_nil] at htext
    refine ⟨text, hc, ?_⟩
    have htrace : page (before o) o (s.enter b p c).trace = page text o (c.lines p b.out) := by
      rw [htext]
      exact page_append ..
    rw [htrace]
    simp only [rest, Logging.enter, Option.elim, BaseLogger.rest, move]
    split_ifs with ho
    · rw [Function.update_self, ho]
      exact c.body_rest s.made p o text
    · rw [lines_elsewhere ho, List.append_nil]
  · have htold := h.told r
    have hlines : linesOf r (s.enter b p c).trace =
        linesOf r s.trace ++ linesOf r (c.lines p b.out) := linesOf_append ..
    rw [hlines, hplaces, show (s.enter b p c).accepted r = s.accepted r from rfl, htold,
      List.append_assoc]
    congr 1
    rcases eq_or_ne r p with rfl | hrp
    · rw [Function.update_self, hp]
      cases c <;> simp [Place.pending, Call.lines, linesOf, Event.lineOf]
    · rw [Function.update_of_ne hrp]
      cases c <;> simp [Call.lines, linesOf, Event.lineOf, hrp.symm]
  · have hr := h.routed
    rw [hb] at hr
    cases c with
    | log m l => exact hr.line p m l
    | _ => simpa [Logging.enter, Call.lines] using hr

/-- The thread that has the mutex is the only one behind the `lock_guard`. -/
theorem Kept.only (h : Kept before s) {p r n k : ℕ} {todo todo' : List Work}
    (hp : s.places p = .inside n todo) (hr : s.places r = .inside k todo') : r = p := by
  obtain ⟨-, b, hb, hm⟩ := h.holder p n todo hp
  obtain ⟨-, b', hb', hm'⟩ := h.holder r k todo' hr
  obtain rfl := Option.some.inj (hb.symm.trans hb')
  exact Option.some.inj (hm'.symm.trans hm)

/-- The thread with the mutex does one thing, on the stream or on the logger's level. -/
theorem Kept.worked (h : Kept before s) {b : BaseLogger} (hb : s.logger = some b)
    (b' : BaseLogger) (hout : b'.out = b.out) (hmutex : b'.mutex = b.mutex) {p : ℕ} {w : Work}
    {todo : List Work}
    (hp : s.places p = .inside s.made (w :: todo)) (htail : Tail todo)
    (stream : OutStream Char)
    (hc : ∀ text, (s.streams b.out).Carries text → stream.Carries (text ++ w.char.toList))
    (he : stream.good → stream.buffer = [] ∨ .flush ∈ todo) :
    Kept before { (s.write b.out stream).move p (.inside s.made todo) with logger := some b' } := by
  obtain ⟨-, b₀, hb₀, hm⟩ := h.holder p _ _ hp
  obtain rfl : b = b₀ := Option.some.inj (hb.symm.trans hb₀)
  refine ⟨fun r k todo' hr => ?_, fun b₁ r hb₁ hr => ?_, fun o hkept => ?_, fun o => ?_,
    fun r => ?_, ?_⟩
  · replace hr : Function.update s.places p (.inside s.made todo) r = .inside k todo' := hr
    rcases eq_or_ne r p with rfl | hrp
    · rw [Function.update_self] at hr
      exact ⟨(Place.inside.inj hr).1.symm, b', rfl, hmutex.trans hm⟩
    · rw [Function.update_of_ne hrp] at hr
      exact absurd (h.only hp hr) hrp
  · obtain rfl : b' = b₁ := Option.some.inj hb₁
    obtain rfl : r = p := Option.some.inj (hr.symm.trans (hmutex.trans hm))
    exact ⟨todo, Function.update_self .., htail⟩
  · obtain ⟨text, hcarries, htext⟩ := h.carries o hkept
    simp only [rest, hb, Option.elim, BaseLogger.rest, hm, hp] at htext
    simp only [rest, move, write, Option.elim, BaseLogger.rest, hout, hmutex, hm,
      Function.update_self]
    rcases eq_or_ne b.out o with rfl | ho
    · refine ⟨text ++ w.char.toList, by simpa using hc text hcarries, ?_⟩
      rw [← htext, if_pos rfl, if_pos rfl, List.append_assoc]
      cases hw : w.char <;> simp [Place.rest, hw]
    · rw [if_neg ho] at htext
      exact ⟨text, by simpa [ho.symm] using hcarries, by rwa [if_neg ho]⟩
  · simp only [move, write]
    rcases eq_or_ne o b.out with rfl | ho
    · rw [Function.update_self]
      exact fun hgood => (he hgood).imp_right fun hf =>
        ⟨b', p, _, todo, rfl, hout, hmutex.trans hm, Function.update_self .., hf⟩
    · rw [Function.update_of_ne ho]
      intro hgood
      rcases h.empty o hgood with hbuf | ⟨b₁, r, n, todo', hb₁, ho₁, -⟩
      · exact Or.inl hbuf
      · obtain rfl := Option.some.inj (hb.symm.trans hb₁)
        exact absurd ho₁.symm ho
  · refine (h.told r).trans (congrArg (linesOf r s.trace ++ ·) ?_)
    simp only [move]
    rcases eq_or_ne r p with rfl | hrp
    · rw [Function.update_self, hp]
      rfl
    · rw [Function.update_of_ne hrp]
      rfl
  · have hr := h.routed
    rw [hb, Option.map_some, ← hout] at hr
    exact hr

theorem Kept.work (h : Kept before s) {b : BaseLogger} {p n : ℕ} {w : Work} {todo : List Work}
    (hb : s.logger = some b) (hp : s.places p = .inside n (w :: todo)) :
    Kept before (s.work b p todo w) := by
  obtain ⟨rfl, b₀, hb₀, hm⟩ := h.holder p _ _ hp
  obtain rfl : b = b₀ := Option.some.inj (hb.symm.trans hb₀)
  obtain ⟨todo', hp', htail⟩ := h.held b p hb hm
  obtain ⟨-, rfl⟩ := Place.inside.inj (hp.symm.trans hp')
  have hsame : ∀ stream, { (s.write b.out stream).move p (.inside s.made todo) with
      logger := some b } = (s.write b.out stream).move p (.inside s.made todo) := by
    intro stream
    rw [← hb]
    rfl
  cases htail with
  | assign lev =>
    have hbuf (hgood : (s.streams b.out).good) : (s.streams b.out).buffer = [] := by
      rcases h.empty b.out hgood with hbuf | ⟨_, r, k, todo, -, -, -, hr, hf⟩
      · exact hbuf
      · obtain rfl := h.only hp hr
        obtain ⟨-, rfl⟩ := Place.inside.inj (hp.symm.trans hr)
        simp at hf
    have hk := h.worked hb { b with level := lev } rfl rfl hp .nil _
      (fun text ht => by simpa [Work.char] using ht) fun hgood => Or.inl (hbuf hgood)
    rwa [write, Function.update_eq_self] at hk
  | flush =>
    have hk := h.worked hb b rfl rfl hp .nil (s.streams b.out).flush
      (fun text ht => by simpa [Work.char] using ht.flush)
      fun hgood => Or.inl (OutStream.flush_buffer hgood)
    rwa [hsame] at hk
  | put c hf ht =>
    have hk := h.worked hb b rfl rfl hp ht ((s.streams b.out).put c)
      (fun text hc => hc.put c) fun _ => Or.inr hf
    rwa [hsame] at hk

/-- The mutex is unlocked when the line is written and flushed. -/
theorem Kept.leave (h : Kept before s) {b : BaseLogger} {p n : ℕ} (hb : s.logger = some b)
    (hp : s.places p = .inside n []) : Kept before (s.leave b p) := by
  obtain ⟨rfl, b₀, hb₀, hm⟩ := h.holder p _ _ hp
  obtain rfl : b = b₀ := Option.some.inj (hb.symm.trans hb₀)
  have hplaces : (s.leave b p).places = Function.update s.places p .idle := rfl
  have hbuf : ∀ o, (s.streams o).good → (s.streams o).buffer = [] := by
    intro o hgood
    rcases h.empty o hgood with hbuf | ⟨_, r, k, todo, -, -, -, hr, hf⟩
    · exact hbuf
    · obtain rfl := h.only hp hr
      obtain ⟨-, rfl⟩ := Place.inside.inj (hp.symm.trans hr)
      cases hf
  refine ⟨fun r k todo hr => ?_, fun b' r hb' hm' => ?_, fun o hkept => ?_,
    fun o hgood => .inl (hbuf o hgood), fun r => ?_, ?_⟩
  · rw [hplaces] at hr
    rcases eq_or_ne r p with rfl | hrp
    · rw [Function.update_self] at hr
      cases hr
    · rw [Function.update_of_ne hrp] at hr
      exact absurd (h.only hp hr) hrp
  · obtain rfl := Option.some.inj hb'
    cases hm'
  · obtain ⟨text, hc, htext⟩ := h.carries o hkept
    refine ⟨text, hc, ?_⟩
    simp only [rest, hb, Option.elim, BaseLogger.rest, hm, hp] at htext
    rw [show (Place.inside s.made []).rest = [] from rfl, ite_self] at htext
    rw [show (s.leave b p).rest o = [] from ite_self _]
    exact htext
  · refine (h.told r).trans (congrArg (linesOf r s.trace ++ ·) ?_)
    rw [hplaces]
    rcases eq_or_ne r p with rfl | hrp
    · rw [Function.update_self, hp]
      rfl
    · rw [Function.update_of_ne hrp]
  · have hr := h.routed
    rwa [hb] at hr

/-- The old logger has nothing to write when it is destroyed. -/
theorem closing_eq {old : OutStream Char} {o : Out} (hold : old.good → old.buffer = [])
    (hs : old.good → (s.streams o).buffer = []) : s.closing old o = s := by
  have hwrite : s.write o ((s.streams o).drain old) = s := by
    rw [OutStream.drain_of_empty hold hs, write, Function.update_eq_self]
  cases o with
  | cerr => rfl
  | _ => exact hwrite

/-- The stream of a new logger, with what its device has. -/
theorem Kept.opening (h : Kept before s) (hm : s.logger.bind (·.mutex) = none) {kind : Kind}
    {o : Out} {stream : OutStream Char} (ho : s.opening kind = some (o, stream)) :
    ((stream.good ∨ (s.streams o).good) → stream.buffer = []) ∧
      (s.spoils o = false → stream.Carries (page (before o) o (s.trace ++ [.made o]))) ∧
      ∀ o' ≠ o, ∀ text, Event.on o' text (.made o) = text := by
  obtain ⟨hrest, hbuf, -⟩ := h.rest_of_unlocked hm
  have hstd : ∀ o, s.spoiled o = false → (s.streams o).Carries (page (before o) o s.trace) := by
    intro o hkept
    obtain ⟨text, hc, htext⟩ := h.carries o hkept
    rw [hrest o, List.append_nil] at htext
    exact htext ▸ hc
  cases kind with
  | stdoutLogger =>
    obtain ⟨rfl, rfl⟩ := Prod.mk.inj (Option.some.inj ho)
    exact ⟨fun hgood => hbuf .cout (hgood.elim id id), fun hkept => page_append .. ▸
      hstd .cout hkept, fun _ _ _ => rfl⟩
  | stderrLogger =>
    obtain ⟨rfl, rfl⟩ := Prod.mk.inj (Option.some.inj ho)
    exact ⟨fun hgood => hbuf .cerr (hgood.elim id id), fun hkept => page_append .. ▸
      hstd .cerr hkept, fun _ _ _ => rfl⟩
  | fileLogger opened =>
    cases opened with
    | none => cases ho
    | some i =>
      obtain ⟨rfl, rfl⟩ := Prod.mk.inj (Option.some.inj ho)
      refine ⟨fun _ => rfl, fun _ => ?_, fun o' ho' text => if_neg (Ne.symm ho')⟩
      rw [page_append]
      simpa [page, Event.on] using OutStream.Carries.onto []

theorem Kept.init (h : Kept before s) {kind : Kind} {l : Level}
    (hm : (s.opening kind).isSome → s.logger.bind (·.mutex) = none) :
    Kept before (s.init kind l) := by
  unfold Logging.init
  cases ho : s.opening kind with
  | none => exact h
  | some new =>
    obtain ⟨o, stream⟩ := new
    rw [ho] at hm
    replace hm := hm rfl
    dsimp only
    rw [if_pos hm]
    obtain ⟨hrest, hbuf, hout⟩ := h.rest_of_unlocked hm
    obtain ⟨hempty, hcarries, hother⟩ := h.opening hm ho
    have hbuf' : ∀ o', ((Function.update s.streams o stream o').good ∨ (s.streams o').good) →
        (Function.update s.streams o stream o').buffer = [] := by
      intro o' hgood
      rcases eq_or_ne o' o with rfl | ho'
      · rw [Function.update_self] at hgood ⊢
        exact hempty hgood
      · rw [Function.update_of_ne ho'] at hgood ⊢
        exact hbuf o' (hgood.elim id id)
    have hnew : s.install l o stream = { s.write o stream with
        spoiled := Function.update s.spoiled o (s.spoils o)
        logger := some ⟨o, l, none⟩, made := s.made + 1, trace := s.trace ++ [.made o] } := by
      unfold install
      cases s.logger with
      | none => rfl
      | some b => exact closing_eq (hbuf b.out) fun hgood => hbuf' b.out (.inr hgood)
    rw [hnew]
    refine ⟨fun p n todo hp => absurd hp (hout p n todo), fun b p hb hp => ?_, fun o' hkept => ?_,
      fun o' hgood => .inl (hbuf' o' (.inl hgood)), fun p => ?_, h.routed.made o⟩
    · obtain rfl := Option.some.inj hb
      cases hp
    · refine ⟨page (before o') o' (s.trace ++ [.made o]), ?_, ?_⟩
      · replace hkept : Function.update s.spoiled o (s.spoils o) o' = false := hkept
        rcases eq_or_ne o' o with rfl | ho'
        · rw [Function.update_self] at hkept
          simpa [write] using hcarries hkept
        · rw [Function.update_of_ne ho'] at hkept
          obtain ⟨text, hc, htext⟩ := h.carries o' hkept
          rw [hrest o', List.append_nil] at htext
          rw [page_append, ← htext]
          simpa [write, ho', page, hother o' ho'] using hc
      · exact (congrArg _ (ite_self _)).trans (List.append_nil _)
    · refine (h.told p).trans ?_
      rw [linesOf_append]
      simp [write, linesOf, Event.lineOf]

/-- `InstanceError` -/
theorem Kept.threw (h : Kept before s) (hnone : s.logger = none) (p : ℕ) :
    Kept before { s with trace := s.trace ++ [.threw p] } := by
  refine ⟨h.holder, h.held, fun o hkept => ?_, h.empty, fun r => ?_, ?_⟩
  · obtain ⟨text, hc, htext⟩ := h.carries o hkept
    refine ⟨text, hc, ?_⟩
    rw [page_append]
    exact htext
  · rw [linesOf_append, show linesOf r [.threw p] = [] from rfl, List.append_nil]
    exact h.told r
  · have hr := h.routed
    rw [hnone] at hr
    simpa [hnone] using hr.threw p

theorem Kept.go (h : Kept before s) {p : ℕ} (hdef : s.Defined (.go p)) (hs : s.go p = some s') :
    Kept before s' := by
  rcases go_cases hs with ⟨⟨n, hn, hne⟩, -⟩ | ⟨b, hb, ⟨c, hp, rfl⟩ | ⟨c, hp, hfree, rfl⟩ |
    ⟨w, todo, hp, rfl⟩ | ⟨hp, rfl⟩⟩
  · exact absurd (hdef n hn) hne
  · exact h.look hp
  · exact h.enter hb hfree hp
  · exact h.work hb hp
  · exact h.leave hb hp

theorem Kept.step (h : Kept before s) {a : Turn} (hdef : s.Defined a) (hs : s.step a = some s') :
    Kept before s' := by
  replace hs := step_some hs
  cases a with
  | call p c =>
    obtain ⟨hidle, hs⟩ := Option.ite_none_right_eq_some.mp hs
    split_ifs at hs with hnone
    · obtain rfl := Option.some.inj hs
      exact h.threw hnone p
    · obtain rfl := Option.some.inj hs
      exact h.moves (by simp [hidle]) (by simp) (by rw [hidle]; rfl)
  | go p => exact h.go hdef hs
  | init p kind l =>
    obtain ⟨-, hs⟩ := Option.ite_none_right_eq_some.mp hs
    exact Option.some.inj hs ▸ h.init hdef
  | spill o k =>
    obtain rfl := Option.some.inj hs
    refine h.written (fun _ hc => hc.spill k) fun hgood => ?_
    rw [OutStream.spill_good] at hgood
    exact ⟨hgood, OutStream.spill_buffer k⟩
  | fail o k i n =>
    obtain rfl := Option.some.inj hs
    exact h.written (fun _ hc => hc.fail k i n) fun hgood => absurd hgood Bool.false_ne_true

theorem Kept.reached {turns : List Turn}
    (hdef : Along Logging.step Logging.Defined (.start before) turns)
    (h : run Logging.step (.start before) turns = some s) : Kept before s :=
  run_invariant (fun _ _ _ hk hd hs => hk.step hd hs) (.start before) hdef h

end Logging

/-- In every run in which no logger is replaced while a thread has its mutex, and no thread goes
on with one that was replaced: every device gets the messages for it whole, each with its newline,
in the order in which the threads locked the mutex. While the mutex is free, all of it is on the
device. A device that has failed had a beginning of that, and nothing but pieces of the rest may
have come behind it; it is left out once the file was opened again while the stream that had
failed was there. The messages of a thread that passed the comparison are written once each and in
the order of its calls. Every line is for the logger set last, and `InstanceError` is only thrown
before there is one. -/
theorem lines_whole {before : Out → List Char} {s : Logging} {turns : List Turn}
    (hdef : Along Logging.step Logging.Defined (.start before) turns)
    (h : run Logging.step (.start before) turns = some s) :
    (∀ o, s.spoiled o = false → ∃ text, (s.streams o).Carries text ∧
        text ++ s.rest o = page (before o) o s.trace) ∧
      (s.logger.bind (·.mutex) = none → ∀ o, s.spoiled o = false → (s.streams o).good →
        (s.streams o).device = page (before o) o s.trace) ∧
      (∀ p, s.accepted p = linesOf p s.trace ++ (s.places p).pending) ∧
      Routed (s.logger.map (·.out)) s.trace := by
  have hk := Logging.Kept.reached hdef h
  refine ⟨hk.carries, fun hm o hkept hgood => ?_, hk.told, hk.routed⟩
  obtain ⟨hrest, hbuf, -⟩ := hk.rest_of_unlocked hm
  obtain ⟨text, hc, htext⟩ := hk.carries o hkept
  rw [hrest o, List.append_nil] at htext
  exact (hc.device hgood (hbuf o hgood)).trans htext

/-- The first message finds no logger. Then two threads compare their levels; the second one is
the first to lock the mutex, and a part of its line is written early. -/
def crossedRun : List Turn :=
  [.call 0 (warn "w".toList), .init 0 (.fileLogger (some 1)) .info, .call 0 (warn "a".toList),
    .call 1 (error "b".toList), .go 0, .go 1, .go 1] ++
  List.replicate 5 (.go 1) ++ [.spill (.file 1) 3, .init 2 (.fileLogger none) .debug] ++
  List.replicate 8 (.go 1) ++ List.replicate 16 (.go 0)

theorem lines_whole_crossed : ∃ s, run Logging.step (.start fun _ => "old".toList) crossedRun =
      some s ∧ (s.streams (.file 1)).device = "[ERROR]: b\n[WARNING]: a\n".toList := by
  have hrun : (run Logging.step (.start fun _ => "old".toList) crossedRun).map (fun s =>
      (s.logger, s.spoiled (.file 1), (s.streams (.file 1)).good, s.trace)) =
      some (some ⟨.file 1, .info, none⟩, false, true,
        [.threw 0, .made (.file 1), .line 1 (.file 1) "[ERROR]: b".toList .error,
          .line 0 (.file 1) "[WARNING]: a".toList .warn]) := by
    decide +kernel
  have hdef : Along Logging.step Logging.Defined (.start fun _ => "old".toList) crossedRun := by
    decide +kernel
  obtain ⟨s, hs, hvalues⟩ := Option.map_eq_some_iff.mp hrun
  simp only [Prod.mk.injEq] at hvalues
  obtain ⟨hlogger, hkept, hgood, htrace⟩ := hvalues
  refine ⟨s, hs, ?_⟩
  rw [(lines_whole hdef hs).2.1 (by rw [hlogger]; rfl) _ hkept hgood, htrace]
  rfl

end Sphere.Log
