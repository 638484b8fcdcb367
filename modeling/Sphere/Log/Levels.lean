import Sphere.Log.Lines

/-! What a level that is set holds back: messages below it are written only where a thread had
compared their level before. -/

namespace Sphere.Log

open Lib Lib.Transition

/-- A call that sets the level. -/
def Call.Sets : Call → Prop
  | .setLevel _ => True
  | _ => False

/-- The thread is about to set the level. -/
def Place.Sets : Place → Prop
  | .has _ c => c.Sets
  | .waits _ c => c.Sets
  | .inside _ todo => ∃ lev, .assign lev ∈ todo
  | .idle => False

/-- Nobody calls `set_level`, and the logger stays. -/
def Turn.Quiet : Turn → Prop
  | .call _ c => ¬ c.Sets
  | .init _ _ _ => False
  | _ => True

instance (c : Call) : Decidable c.Sets := by
  cases c <;> unfold Call.Sets <;> infer_instance

instance (a : Turn) : Decidable a.Quiet :=
  match a with
  | .call _ c => show Decidable (¬ c.Sets) from instDecidableNot
  | .init .. => .isFalse id
  | .go _ | .spill .. | .fail .. => .isTrue trivial

/-- At or above the level, or one that the thread had compared in `s`. -/
def Passes (s : Logging) (lev : Level) (p : ℕ) (m : List Char) (l : Level) : Prop :=
  lev ≤ l ∨ ∃ n, s.places p = .waits n (.log m l)

/-- What holds from `s` on. -/
structure Steady (s : Logging) (lev : Level) (t : Logging) : Prop where
  level : ∀ b, t.logger = some b → b.level = lev
  quiet : ∀ p, ¬ (t.places p).Sets
  waits : ∀ p n m l, t.places p = .waits n (.log m l) → Passes s lev p m l
  lines : ∃ more, t.trace = s.trace ++ more ∧
    ∀ p o m l, .line p o m l ∈ more → Passes s lev p m l

theorem Call.body_sets (c : Call) (n : ℕ) : (Place.inside n c.body).Sets ↔ c.Sets := by
  cases c <;> simp [Place.Sets, Call.body, Call.Sets]

namespace Steady

variable {s t t' : Logging} {lev : Level}

/-- A thread moves; what it locks the mutex for, it had compared. -/
theorem moved (h : Steady s lev t) {p : ℕ} {q : Place} {more : List Event}
    (hlevel : ∀ b, t'.logger = some b → b.level = lev)
    (hplaces : t'.places = Function.update t.places p q) (hq : ¬ q.Sets)
    (hwaits : ∀ n m l, q = .waits n (.log m l) → Passes s lev p m l)
    (htrace : t'.trace = t.trace ++ more)
    (hmore : ∀ r o m l, .line r o m l ∈ more → Passes s lev r m l) : Steady s lev t' := by
  refine ⟨hlevel, fun r => ?_, fun r n m l hr => ?_, ?_⟩
  · rw [hplaces]
    rcases eq_or_ne r p with rfl | hrp
    · rwa [Function.update_self]
    · rw [Function.update_of_ne hrp]
      exact h.quiet r
  · rw [hplaces] at hr
    rcases eq_or_ne r p with rfl | hrp
    · rw [Function.update_self] at hr
      exact hwaits n m l hr
    · rw [Function.update_of_ne hrp] at hr
      exact h.waits r n m l hr
  · obtain ⟨before, hbefore, hlines⟩ := h.lines
    refine ⟨before ++ more, by rw [htrace, hbefore, List.append_assoc], fun r o m l hm => ?_⟩
    rcases List.mem_append.mp hm with hm | hm
    · exact hlines r o m l hm
    · exact hmore r o m l hm

theorem go (h : Steady s lev t) {p : ℕ} (hs : t.go p = some t') : Steady s lev t' := by
  rcases Logging.go_cases hs with ⟨-, rfl⟩ | ⟨b, hb, hgo⟩
  · exact ⟨h.level, h.quiet, h.waits, h.lines⟩
  have hlev := h.level b hb
  have hquiet := h.quiet p
  rcases hgo with ⟨c, hp, rfl⟩ | ⟨c, hp, -, rfl⟩ | ⟨w, todo, hp, rfl⟩ | ⟨hp, rfl⟩
  · rw [hp] at hquiet
    cases c with
    | log m l =>
      simp only [Logging.look]
      split_ifs with hl
      · refine h.moved h.level rfl hquiet (fun n m' l' hq => ?_) (List.append_nil _).symm (by simp)
        obtain ⟨-, hq⟩ := Place.waits.inj hq
        obtain ⟨rfl, rfl⟩ := Call.log.inj hq
        exact Or.inl (hlev ▸ hl)
      · exact h.moved h.level rfl id (by simp) (List.append_nil _).symm (by simp)
    | _ => exact h.moved h.level rfl hquiet (by simp) (List.append_nil _).symm (by simp)
  · rw [hp] at hquiet
    refine h.moved (fun b' hb' => ?_) rfl (by rwa [Call.body_sets]) (by simp) rfl
      fun r o m l hm => ?_
    · obtain rfl := Option.some.inj hb'
      exact hlev
    · cases c with
      | log m' l' =>
        obtain ⟨rfl, -, rfl, rfl⟩ := Event.line.inj (List.mem_singleton.mp hm)
        exact h.waits r _ m l hp
      | _ => cases hm
  · rw [hp] at hquiet
    have htail : ¬ (Place.inside t.made todo).Sets := by
      rintro ⟨lev', hl⟩
      exact hquiet ⟨lev', List.mem_cons_of_mem _ hl⟩
    cases w with
    | assign lev' => exact absurd ⟨lev', List.mem_cons_self⟩ hquiet
    | _ => exact h.moved h.level rfl htail (by simp) (List.append_nil _).symm (by simp)
  · refine h.moved (fun b' hb' => ?_) rfl id (by simp) (List.append_nil _).symm (by simp)
    obtain rfl := Option.some.inj hb'
    exact hlev

theorem step (h : Steady s lev t) {a : Turn} (ha : a.Quiet) (hs : t.step a = some t') :
    Steady s lev t' := by
  replace hs := Logging.step_some hs
  cases a with
  | call p c =>
    obtain ⟨-, hs⟩ := Option.ite_none_right_eq_some.mp hs
    split_ifs at hs
    · obtain rfl := Option.some.inj hs
      obtain ⟨before, hbefore, hlines⟩ := h.lines
      refine ⟨h.level, h.quiet, h.waits, before ++ [.threw p], ?_, fun r o m l hm => ?_⟩
      · rw [← List.append_assoc, ← hbefore]
      · rcases List.mem_append.mp hm with hm | hm
        · exact hlines r o m l hm
        · cases List.mem_singleton.mp hm
    · obtain rfl := Option.some.inj hs
      exact h.moved h.level rfl ha (by simp) (List.append_nil _).symm (by simp)
  | go p => exact h.go hs
  | init p kind l => exact ha.elim
  | spill o k => exact Option.some.inj hs ▸ ⟨h.level, h.quiet, h.waits, h.lines⟩
  | fail o k i n => exact Option.some.inj hs ▸ ⟨h.level, h.quiet, h.waits, h.lines⟩

end Steady

/-- While nobody sets the level and the logger stays, what is written below the level is the
messages that a thread had compared with an earlier one. -/
theorem level_holds {s t : Logging} {turns : List Turn} {b : BaseLogger}
    (hb : s.logger = some b) (hquiet : ∀ p, ¬ (s.places p).Sets) (hturns : ∀ a ∈ turns, a.Quiet)
    (h : run Logging.step s turns = some t) :
    (∀ b', t.logger = some b' → b'.level = b.level) ∧
      ∃ more, t.trace = s.trace ++ more ∧ ∀ p o m l, .line p o m l ∈ more →
        b.level ≤ l ∨ ∃ n, s.places p = .waits n (.log m l) := by
  have hsteady : Steady s b.level s := by
    refine ⟨fun b' hb' => ?_, hquiet, fun p n m l hp => Or.inr ⟨n, hp⟩, [],
      (List.append_nil _).symm, by simp⟩
    obtain rfl := Option.some.inj (hb.symm.trans hb')
    rfl
  have hmeets : Along Logging.step (fun _ a => a.Quiet) s turns := Along.of_forall hturns
  have ht := run_invariant (fun _ _ _ hk ha hs => hk.step ha hs) hsteady hmeets h
  exact ⟨ht.level, ht.lines⟩

/-- The level is `ERROR`, and one thread had compared a message before. -/
def raised : Logging :=
  ⟨fun _ => .onto [], fun _ => false, some ⟨.cout, .error, none⟩, 1,
    Function.update (fun _ => .idle) 0 (.waits 1 (debug "a".toList)), fun _ => [], [], false⟩

/-- Another thread's warning is dropped, the earlier message is written. -/
def raisedRun : List Turn := [.call 1 (warn "b".toList), .go 1] ++ List.replicate 14 (.go 0)

theorem level_holds_raised : ∃ t more, run Logging.step raised raisedRun = some t ∧
    t.trace = raised.trace ++ more ∧ more.length = 1 ∧ ∀ p o m l, .line p o m l ∈ more →
      Level.error ≤ l ∨ ∃ n, raised.places p = .waits n (.log m l) := by
  have hrun : (run Logging.step raised raisedRun).map (·.trace.length) = some 1 := by
    decide +kernel
  obtain ⟨t, ht, hlength⟩ := Option.map_eq_some_iff.mp hrun
  have hquiet : ∀ p, ¬ (raised.places p).Sets := by
    intro p
    rcases eq_or_ne p 0 with rfl | hp
    · exact id
    · have hidle : raised.places p = .idle := by simp [raised, hp]
      rw [hidle]
      exact id
  obtain ⟨-, more, hmore, hlines⟩ := level_holds (b := ⟨.cout, .error, none⟩) rfl hquiet
    (by decide : ∀ a ∈ raisedRun, a.Quiet) ht
  exact ⟨t, more, ht, hmore, by simpa [hmore, raised] using hlength, hlines⟩

end Sphere.Log
