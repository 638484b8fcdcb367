import Sphere.Lib.LittleEndian
import Sphere.Net.Reacting

/-! The server of `5.net/tests/calculator.cpp`, over the service: two `int` come, their sum
goes back. -/

namespace Sphere.Net

open Lib Lib.Transition

/-- `int` -/
def intBytes (x : ℤ) : List UInt8 := LittleEndian.store 4 x

/-- The two numbers of the buffer; where the sum is no `int`, the addition wraps. -/
def result (buffer : List UInt8) : ℤ :=
  LittleEndian.load (buffer.take 4) + LittleEndian.load ((buffer.drop 4).take 4)

def Calculator : React
  | .onNewConnection, _ => [.subscribe READ]
  | .onReadAvailable, c =>
    if c.read.length = 2 * 4 then
      [.read, .unsubscribe READ, .write (intBytes (result c.read)), .subscribe WRITE]
    else [.read]
  | .onWriteDone, _ => [.unsubscribe WRITE]
  | .onError, _ => [.write (intBytes (-1))]
  | .onClose, _ => []

theorem load_intBytes {x : ℤ} (hlo : -2 ^ 31 ≤ x) (hhi : x < 2 ^ 31) :
    LittleEndian.load (intBytes x) = x :=
  LittleEndian.load_store (by norm_num; omega) (by norm_num; omega)

theorem calculator_open : Calculator.Open := by
  intro cb c
  cases cb with
  | onReadAvailable =>
    simp only [Calculator]
    split_ifs <;> simp
  | _ => simp [Calculator]

namespace Calc

variable {calls : List (Callback × Client)} {c : Client}

def errors (calls : List (Callback × Client)) : ℕ := calls.countP (·.1 = .onError)

/-- A read has left two numbers in the buffer, and nothing more. -/
def Asked (calls : List (Callback × Client)) : Prop :=
  ∃ x ∈ calls, x.1 = .onReadAvailable ∧ x.2.received.length = 8

instance (calls : List (Callback × Client)) : Decidable (Asked calls) :=
  inferInstanceAs (Decidable (∃ x ∈ calls, _))

def numbers (xs : List ℤ) : List UInt8 := xs.flatMap intBytes

/-- No read has found two numbers. -/
structure Waiting (calls : List (Callback × Client)) (c : Client) : Prop where
  asked : ¬ Asked calls
  written : c.written = numbers (List.replicate (errors calls) (-1))
  sent : c.sent = []
  watch : c.epollOption.has WRITE = false

/-- The sum is written; what is written before and after it reports errors. -/
structure Answered (calls : List (Callback × Client)) (c : Client) : Prop where
  asked : Asked calls
  text : c.received.length = 8
  written : ∃ m n, m + n = errors calls ∧ c.written =
    numbers (List.replicate m (-1) ++ result c.received :: List.replicate n (-1))
  watch : c.epollOption.has READ = false

theorem asked_cons {cb : Callback} {d : Client} :
    Asked ((cb, d) :: calls) ↔ (cb = .onReadAvailable ∧ d.received.length = 8) ∨ Asked calls := by
  simp [Asked]

theorem errors_cons {cb : Callback} (hcb : cb ≠ .onError) {d : Client} :
    errors ((cb, d) :: calls) = errors calls :=
  List.countP_cons_of_neg (by simpa using hcb)

theorem errors_error {d : Client} : errors ((.onError, d) :: calls) = errors calls + 1 :=
  List.countP_cons_of_pos (by simp)

theorem numbers_snoc (xs : List ℤ) : numbers xs ++ intBytes (-1) = numbers (xs ++ [-1]) := by
  rw [numbers, numbers, List.flatMap_append, List.flatMap_singleton]

/-- A callback that writes nothing. -/
theorem Waiting.call (h : Waiting calls c) {cb : Callback} {d c' : Client} (hcb : cb ≠ .onError)
    (hread : cb = .onReadAvailable → d.received.length ≠ 8) (hw : c'.written = c.written)
    (hs : c'.sent = c.sent) (ho : c'.epollOption.has WRITE = false) :
    Waiting ((cb, d) :: calls) c' := by
  refine ⟨?_, ?_, hs.trans h.sent, ho⟩
  · rw [asked_cons]
    rintro (⟨he, hlen⟩ | ha)
    · exact hread he hlen
    · exact h.asked ha
  · rw [errors_cons hcb, hw, h.written]

theorem Answered.call (h : Answered calls c) {cb : Callback} {d c' : Client} (hcb : cb ≠ .onError)
    (hw : c'.written = c.written) (ht : c'.received = c.received)
    (ho : c'.epollOption.has READ = false) : Answered ((cb, d) :: calls) c' := by
  refine ⟨asked_cons.mpr (.inr h.asked), by rw [ht]; exact h.text, ?_, ho⟩
  rw [errors_cons hcb, hw, ht]
  exact h.written

theorem Waiting.error (h : Waiting calls c) :
    Waiting ((.onError, c) :: calls) (c.does (Calculator .onError c)) := by
  refine ⟨?_, ?_, h.sent, h.watch⟩
  · rw [asked_cons]
    rintro (⟨he, -⟩ | ha)
    · cases he
    · exact h.asked ha
  · change c.written ++ intBytes (-1) = _
    rw [h.written, numbers_snoc, errors_error, List.replicate_succ']

theorem Answered.error (h : Answered calls c) :
    Answered ((.onError, c) :: calls) (c.does (Calculator .onError c)) := by
  obtain ⟨m, n, hmn, hw⟩ := h.written
  refine ⟨asked_cons.mpr (.inr h.asked), h.text, ⟨m, n + 1, ?_, ?_⟩, h.watch⟩
  · rw [errors_error, ← hmn, add_assoc]
  · change c.written ++ intBytes (-1) = _
    rw [hw, numbers_snoc, List.append_assoc, List.cons_append, ← List.replicate_succ']
    rfl

theorem Waiting.read (h : Waiting calls c) (hc : c.Delivered) (data : List UInt8) :
    Waiting ((.onReadAvailable, c.got data) :: calls)
      ((c.got data).does (Calculator .onReadAvailable (c.got data))) ∨
    Answered ((.onReadAvailable, c.got data) :: calls)
      ((c.got data).does (Calculator .onReadAvailable (c.got data))) := by
  have hread : (c.got data).read = (c.got data).received := congrArg (· ++ data) hc.2
  have herror : Callback.onReadAvailable ≠ .onError := by simp
  simp only [Calculator]
  rw [hread]
  split_ifs with hlen
  · refine .inr ⟨asked_cons.mpr (.inl ⟨rfl, hlen⟩), hlen, ⟨errors calls, 0, ?_, ?_⟩, ?_⟩
    · rw [errors_cons herror, add_zero]
    · change c.written ++ intBytes (result (c.got data).received) = _
      rw [h.written, numbers, numbers, List.flatMap_append, List.replicate_zero,
        List.flatMap_singleton]
      rfl
    · change ((Client.put ((c.got data).unsubscribe READ) _).subscribe WRITE).epollOption.has
        READ = false
      rw [Client.subscribe_has (by simp)]
      change (((c.got data).unsubscribe READ).epollOption.has READ || WRITE.has READ) = false
      rw [Client.unsubscribe_has (by simp)]
      simp [show READ.has READ = true by decide, show WRITE.has READ = false by decide]
  · exact .inl (h.call herror (fun _ => hlen) rfl rfl h.watch)

theorem waiting_or_answered (h : Alone Calculator calls c) :
    Waiting calls c ∨ Answered calls c := by
  have hnone : UNKNOWN.has WRITE = false := by decide
  induction h with
  | accept id fd => exact .inl ⟨by simp [Asked], rfl, rfl, hnone⟩
  | watch w h ih =>
    rcases ih with ⟨ha, hw, hs, ho⟩ | ⟨ha, ht, hw, ho⟩
    · exact .inl ⟨ha, hw, hs, ho⟩
    · exact .inr ⟨ha, ht, hw, ho⟩
  | @onNewConnection c h ih =>
    have ih := ih.resolve_right fun hno => by simpa [Asked] using hno.asked
    refine .inl (ih.call (by simp) (by simp) rfl rfl ?_)
    change (c.subscribe READ).epollOption.has WRITE = false
    rw [Client.subscribe_has (by simp), ih.watch]
    decide
  | @onReadAvailable calls c data h hread hdata ih =>
    refine (ih.resolve_right fun hno => ?_).read h.delivered data
    rw [hno.watch] at hread
    cases hread
  | onError h ih => exact ih.imp (·.error) (·.error)
  | @write calls c size h hwrite ih =>
    rcases ih with hno | ⟨ha, ht, hw, ho⟩
    · rw [hno.watch] at hwrite
      cases hwrite
    · exact .inr ⟨ha, ht, hw, ho⟩
  | @onWriteDone calls c h hwrite hempty ih =>
    have ih := ih.resolve_left fun hno => by
      rw [hno.watch] at hwrite
      cases hwrite
    refine .inr (ih.call (by simp) rfl rfl ?_)
    change (c.unsubscribe WRITE).epollOption.has READ = false
    rw [Client.unsubscribe_has (by simp), ih.watch, Bool.false_and]
  | onClose h ih =>
    rcases ih with ih | ih
    · exact .inl (ih.call (by simp) (by simp) rfl rfl hnone)
    · have hread : UNKNOWN.has READ = false := by decide
      exact .inr (ih.call (by simp) rfl rfl hread)

end Calc

/-- In every run of the calculator and for every client: once a read has left eight bytes in the
buffer their sum is written, once, between as many -1 as there are errors, and nothing more is
read; before that nothing is sent. A client that sends two numbers whose sum is an `int`, and
has no error, is sent the sum. -/
theorem calculator_answers (server : ℤ) (inputs : List Service.Input) (σ : Service)
    (hserved : Along Service.step (Service.Served Calculator) (Service.start server) inputs)
    (hrun : run Service.step (Service.start server) inputs = some σ) :
    ∀ c, c ∈ σ.connections ∨ c ∈ σ.erased →
      (Calc.Asked (σ.calls c.id) → c.received.length = 8 ∧
        ∃ m n, m + n = Calc.errors (σ.calls c.id) ∧ c.sent ++ c.write = Calc.numbers
          (List.replicate m (-1) ++ result c.received :: List.replicate n (-1))) ∧
      (¬ Calc.Asked (σ.calls c.id) → c.sent = [] ∧
        c.write = Calc.numbers (List.replicate (Calc.errors (σ.calls c.id)) (-1))) ∧
      (∀ a b : ℤ, c.received = intBytes a ++ intBytes b → Calc.Asked (σ.calls c.id) →
        Calc.errors (σ.calls c.id) = 0 → -2 ^ 31 ≤ a → a < 2 ^ 31 → -2 ^ 31 ≤ b → b < 2 ^ 31 →
        -2 ^ 31 ≤ a + b → a + b < 2 ^ 31 → LittleEndian.load (c.sent ++ c.write) = a + b) := by
  intro c hc
  have halone := (Service.served_abides calculator_open hserved hrun).1.run hc
  have hboth := Calc.waiting_or_answered halone
  rw [halone.delivered.1]
  refine ⟨fun ha => ?_, fun ha => ?_, fun a b hab ha herr ha0 ha1 hb0 hb1 hs0 hs1 => ?_⟩
  · have h := hboth.resolve_left fun h => h.asked ha
    exact ⟨h.text, h.written⟩
  · have h := hboth.resolve_right fun h => ha h.asked
    have hd := halone.delivered.1
    rw [h.sent, List.nil_append, h.written] at hd
    exact ⟨h.sent, hd⟩
  · have h := hboth.resolve_left fun h => h.asked ha
    obtain ⟨m, n, hmn, hw⟩ := h.written
    obtain ⟨rfl, rfl⟩ : m = 0 ∧ n = 0 := by omega
    have hlen (x : ℤ) : (intBytes x).length = 4 := LittleEndian.store_length 4 x
    have hresult : result c.received = a + b := by
      unfold result
      rw [hab, List.take_left' (hlen a), List.drop_left' (hlen a),
        List.take_of_length_le (hlen b).le, load_intBytes ha0 ha1, load_intBytes hb0 hb1]
    rw [hw, hresult]
    exact (congrArg _ (List.append_nil _)).trans (load_intBytes hs0 hs1)

/-- The callbacks of the first client, with what its connection has received by then. -/
def results (text : List UInt8) : Listener := fun cb =>
  (Calculator cb { Client.make 0 5 with read := text }).map (0, ·)

/-- 3 and -5 come in two parts. -/
def sumRun : List Service.Input :=
  [.wait [⟨3, READ⟩], .handle { blocked with accept := .ok 5 } (results []),
    .wait [⟨5, READ⟩], .handle { blocked with read := .data (oneRead [3, 0, 0]) }
      (results [3, 0, 0]),
    .wait [⟨5, READ⟩],
    .handle { blocked with read := .data (oneRead [0, 0xFB, 0xFF, 0xFF, 0xFF]) }
      (results [3, 0, 0, 0, 0xFB, 0xFF, 0xFF, 0xFF]),
    .wait [⟨5, WRITE⟩], .handle { blocked with write := .wrote 4 } (results []),
    .wait [⟨5, WRITE⟩], .handle blocked (results []),
    .wait [⟨5, CLOSE⟩], .handle blocked (results [])]

theorem calculator_answers_sum :
    ∃ σ, run Service.step (Service.start 3) sumRun = some σ ∧ σ.erased ≠ [] ∧
      ∀ c ∈ σ.erased, LittleEndian.load (c.sent ++ c.write) = 3 + -5 := by
  have hrun : (run Service.step (Service.start 3) sumRun).map
      (fun σ => σ.erased.map fun c => (c.received, decide (Calc.Asked (σ.calls c.id)),
        Calc.errors (σ.calls c.id))) = some [(intBytes 3 ++ intBytes (-5), true, 0)] := by
    decide +kernel
  have hserved : Along Service.step (Service.Served Calculator) (Service.start 3) sumRun := by
    decide +kernel
  obtain ⟨σ, hσ, herased⟩ := Option.map_eq_some_iff.mp hrun
  refine ⟨σ, hσ, fun hnil => by simp [hnil] at herased, fun c hc => ?_⟩
  have hmem := List.mem_map_of_mem (f := fun c : Client =>
    (c.received, decide (Calc.Asked (σ.calls c.id)), Calc.errors (σ.calls c.id))) hc
  rw [herased, List.mem_singleton] at hmem
  simp only [Prod.mk.injEq, decide_eq_true_eq] at hmem
  obtain ⟨hreceived, hasked, herr⟩ := hmem
  exact (calculator_answers 3 sumRun σ hserved hσ c (.inr hc)).2.2 3 (-5) hreceived hasked herr
    (by norm_num) (by norm_num) (by norm_num) (by norm_num) (by norm_num) (by norm_num)

end Sphere.Net
