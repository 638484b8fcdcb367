import Mathlib.Tactic

/-! Loops over calls that move a part of what they are asked for: a sender that goes on until
a FIFO channel has all of its data, and a receiver that goes on until its buffer is full. The
answers of the calls are given; a loop that runs out of them is waiting in a call. -/

namespace Lib.Exact

variable {α β ε : Type*}

/-- The answer of a call: how many elements it has moved, and whether its caller throws for it. -/
structure Calls (β ε : Type*) where
  moved : β → ℕ
  fails : β → Option ε

inductive Outcome (ε : Type*)
  | returned
  | threw (e : ε)
  | waiting
  deriving DecidableEq, Repr

/-- What a sender leaves: what is in the channel, and the answers it has not asked for. -/
structure Sent (α β ε : Type*) where
  outcome : Outcome ε
  channel : List α
  left : List β
  deriving DecidableEq, Repr

structure Received (α β ε : Type*) where
  outcome : Outcome ε
  buffer : List α
  stream : List α
  left : List β
  deriving DecidableEq, Repr

/-- The elements are put into the buffer from a position on. -/
def store (buffer : List α) (pos : ℕ) (chunk : List α) : List α :=
  buffer.take pos ++ chunk ++ buffer.drop (pos + chunk.length)

theorem store_append (front back chunk : List α) :
    store (front ++ back) front.length chunk = front ++ chunk ++ back.drop chunk.length := by
  rw [store, List.take_left, List.drop_length_add_append]

/-- Answers that move `n` elements together, each of them at least one: each answer lies
between one and what remains. -/
structure Chunks (moved : β → ℕ) (n : ℕ) (bs : List β) : Prop where
  pos : ∀ b ∈ bs, 0 < moved b
  sum : (bs.map moved).sum = n

theorem Chunks.cons {moved : β → ℕ} {n : ℕ} {b : β} {bs : List β} (h : Chunks moved n (b :: bs)) :
    0 < moved b ∧ moved b ≤ n ∧ Chunks moved (n - moved b) bs := by
  have hsum := h.sum
  rw [List.map_cons, List.sum_cons] at hsum
  exact ⟨h.pos b List.mem_cons_self, by omega,
    fun b' hb' => h.pos b' (List.mem_cons_of_mem b hb'), by omega⟩

namespace Calls

variable (k : Calls β ε)

/-- The loop of a sender that has sent `counter` elements. -/
def sendLoop (data : List α) (counter : ℕ) (channel : List α) : List β → Sent α β ε
  | [] => ⟨if counter < data.length then .waiting else .returned, channel, []⟩
  | b :: bs =>
    if counter < data.length then
      let channel := channel ++ (data.drop counter).take (k.moved b)
      match k.fails b with
      | some e => ⟨.threw e, channel, bs⟩
      | none => sendLoop data (counter + k.moved b) channel bs
    else ⟨.returned, channel, b :: bs⟩

def sendExact (data channel : List α) (answers : List β) : Sent α β ε :=
  k.sendLoop data 0 channel answers

/-- The loop of a receiver that has received `counter` elements, with the exception for a
stream that has ended. -/
def receiveLoop (ended : ε) (len counter : ℕ) (buffer stream : List α) : List β → Received α β ε
  | [] => ⟨if counter < len then .waiting else .returned, buffer, stream, []⟩
  | b :: bs =>
    if counter < len then
      let buffer := store buffer counter (stream.take (k.moved b))
      let stream := stream.drop (k.moved b)
      match k.fails b with
      | some e => ⟨.threw e, buffer, stream, bs⟩
      | none =>
        if k.moved b = 0 then ⟨.threw ended, buffer, stream, bs⟩
        else receiveLoop ended len (counter + k.moved b) buffer stream bs
    else ⟨.returned, buffer, stream, b :: bs⟩

/-- The receiver asks for as much as the buffer holds. -/
def receiveExact (ended : ε) (buffer stream : List α) (answers : List β) : Received α β ε :=
  k.receiveLoop ended buffer.length 0 buffer stream answers

variable {k}

/-! A sender over chunks. -/

theorem sendLoop_end {data : List α} {counter : ℕ} (h : data.length ≤ counter)
    (channel : List α) (answers : List β) :
    k.sendLoop data counter channel answers = ⟨.returned, channel, answers⟩ := by
  cases answers with
  | nil => rw [sendLoop, if_neg h.not_gt]
  | cons b bs => rw [sendLoop, if_neg h.not_gt]

/-- Behind chunks that are not taken for errors the sender has sent so much more. -/
theorem sendLoop_chunks {n : ℕ} {bs : List β} (h : Chunks k.moved n bs)
    (hok : ∀ b ∈ bs, k.fails b = none) (data : List α) {counter : ℕ}
    (hn : counter + n ≤ data.length) (channel : List α) (answers : List β) :
    k.sendLoop data counter channel (bs ++ answers) =
      k.sendLoop data (counter + n) (channel ++ (data.drop counter).take n) answers := by
  induction bs generalizing n counter channel with
  | nil =>
    obtain rfl : n = 0 := h.sum.symm
    rw [List.nil_append, add_zero, List.take_zero, List.append_nil]
  | cons b bs ih =>
    obtain ⟨hpos, hle, hrest⟩ := h.cons
    have hb := hok b List.mem_cons_self
    rw [List.cons_append, sendLoop, if_pos (by omega)]
    simp only [hb]
    rw [ih hrest (fun b' hb' => hok b' (List.mem_cons_of_mem b hb')) (by omega),
      List.append_assoc]
    have hcounter : counter + k.moved b + (n - k.moved b) = counter + n := by omega
    have htake : (data.drop counter).take (k.moved b) ++
        (data.drop (counter + k.moved b)).take (n - k.moved b) = (data.drop counter).take n := by
      rw [← List.drop_drop, ← List.take_add, Nat.add_sub_cancel' hle]
    rw [hcounter, htake]

theorem sendLoop_fails {n : ℕ} {bs : List β} (h : Chunks k.moved n bs)
    (hfail : ¬ ∀ b ∈ bs, k.fails b = none) (data : List α) {counter : ℕ}
    (hn : counter + n ≤ data.length) (channel : List α) (answers : List β) :
    ∃ e, (k.sendLoop data counter channel (bs ++ answers)).outcome = .threw e := by
  induction bs generalizing n counter channel with
  | nil => exact absurd (by simp) hfail
  | cons b bs ih =>
    obtain ⟨hpos, hle, hrest⟩ := h.cons
    rw [List.cons_append, sendLoop, if_pos (by omega)]
    cases hb : k.fails b with
    | some e => exact ⟨e, rfl⟩
    | none =>
      refine ih hrest (fun hall => hfail ?_) (by omega) _
      rw [List.forall_mem_cons]
      exact ⟨hb, hall⟩

/-- Whatever the chunks, the sender puts its data into the channel and returns if and only if
none of its answers is taken for an error. -/
theorem sendExact_iff {data : List α} {bs : List β} (h : Chunks k.moved data.length bs)
    (channel : List α) (answers : List β) :
    k.sendExact data channel (bs ++ answers) = ⟨.returned, channel ++ data, answers⟩ ↔
      ∀ b ∈ bs, k.fails b = none := by
  refine ⟨fun hsent => ?_, fun hok => ?_⟩
  · by_contra hfail
    have hcount : 0 + data.length ≤ data.length := by omega
    obtain ⟨e, he⟩ := sendLoop_fails h hfail data hcount channel answers
    rw [sendExact] at hsent
    rw [hsent] at he
    cases he
  · have hchunks : k.sendLoop data 0 channel (bs ++ answers) =
        k.sendLoop data (0 + data.length) (channel ++ (data.drop 0).take data.length) answers :=
      sendLoop_chunks h hok data (by omega) channel answers
    rw [sendExact, hchunks, sendLoop_end (by omega), List.drop_zero, List.take_length]

/-! A receiver over chunks. -/

theorem receiveLoop_end (ended : ε) {len counter : ℕ} (h : len ≤ counter) (buffer stream : List α)
    (answers : List β) :
    k.receiveLoop ended len counter buffer stream answers =
      ⟨.returned, buffer, stream, answers⟩ := by
  cases answers with
  | nil => rw [receiveLoop, if_neg h.not_gt]
  | cons b bs => rw [receiveLoop, if_neg h.not_gt]

theorem receiveLoop_ended (ended : ε) {len counter : ℕ} (h : counter < len) {front back : List α}
    (hfront : front.length = counter) {b : β} (hb : k.moved b = 0) (hok : k.fails b = none)
    (stream : List α) (answers : List β) :
    k.receiveLoop ended len counter (front ++ back) stream (b :: answers) =
      ⟨.threw ended, front ++ back, stream, answers⟩ := by
  rw [receiveLoop, if_pos h]
  simp only [hok, hb, if_true]
  rw [List.take_zero, List.drop_zero, ← hfront, store_append, List.append_nil]
  rfl

/-- Behind chunks that are not taken for errors the receiver has received so much more, in
order and at the front of what was not filled. -/
theorem receiveLoop_chunks (ended : ε) {n : ℕ} {bs : List β} (h : Chunks k.moved n bs)
    (hok : ∀ b ∈ bs, k.fails b = none) {len : ℕ} {front back stream : List α}
    (hlen : front.length + n ≤ len) (hn : n ≤ stream.length) (answers : List β) :
    k.receiveLoop ended len front.length (front ++ back) stream (bs ++ answers) =
      k.receiveLoop ended len (front.length + n) (front ++ stream.take n ++ back.drop n)
        (stream.drop n) answers := by
  induction bs generalizing n front back stream with
  | nil =>
    obtain rfl : n = 0 := h.sum.symm
    simp only [List.nil_append, add_zero, List.take_zero, List.append_nil, List.drop_zero]
  | cons b bs ih =>
    obtain ⟨hpos, hle, hrest⟩ := h.cons
    have hb := hok b List.mem_cons_self
    have hchunk : (stream.take (k.moved b)).length = k.moved b := by
      rw [List.length_take]
      omega
    rw [List.cons_append, receiveLoop, if_pos (by omega)]
    simp only [hb, if_neg hpos.ne']
    rw [store_append, hchunk]
    have hfront : (front ++ stream.take (k.moved b)).length = front.length + k.moved b := by
      rw [List.length_append, hchunk]
    have hleft : n - k.moved b ≤ (stream.drop (k.moved b)).length := by
      rw [List.length_drop]
      omega
    rw [← hfront, ih hrest (fun b' hb' => hok b' (List.mem_cons_of_mem b hb')) (by omega) hleft,
      hfront]
    have hcounter : front.length + k.moved b + (n - k.moved b) = front.length + n := by omega
    have htake : stream.take (k.moved b) ++ (stream.drop (k.moved b)).take (n - k.moved b) =
        stream.take n := by
      rw [← List.take_add, Nat.add_sub_cancel' hle]
    rw [hcounter, List.drop_drop, List.drop_drop, Nat.add_sub_cancel' hle,
      List.append_assoc front, htake]

theorem receiveLoop_fails (ended : ε) {n : ℕ} {bs : List β} (h : Chunks k.moved n bs)
    (hfail : ¬ ∀ b ∈ bs, k.fails b = none) {len counter : ℕ} (hlen : counter + n ≤ len)
    (buffer stream : List α) (answers : List β) :
    ∃ e, (k.receiveLoop ended len counter buffer stream (bs ++ answers)).outcome = .threw e ∧
      answers.length ≤
        (k.receiveLoop ended len counter buffer stream (bs ++ answers)).left.length := by
  induction bs generalizing n counter buffer stream with
  | nil => exact absurd (by simp) hfail
  | cons b bs ih =>
    obtain ⟨hpos, hle, hrest⟩ := h.cons
    rw [List.cons_append, receiveLoop, if_pos (by omega)]
    cases hb : k.fails b with
    | some e =>
      refine ⟨e, rfl, ?_⟩
      dsimp only
      rw [List.length_append]
      omega
    | none =>
      simp only [if_neg hpos.ne']
      refine ih hrest (fun hall => hfail ?_) (by omega) _ _
      rw [List.forall_mem_cons]
      exact ⟨hb, hall⟩

/-- Whatever the chunks: if the stream has enough the receiver takes that much and no more. -/
theorem receiveExact_iff (ended : ε) {buffer stream : List α} (hlen : buffer.length ≤ stream.length)
    {bs : List β} (h : Chunks k.moved buffer.length bs) (answers : List β) :
    k.receiveExact ended buffer stream (bs ++ answers) =
        ⟨.returned, stream.take buffer.length, stream.drop buffer.length, answers⟩ ↔
      ∀ b ∈ bs, k.fails b = none := by
  refine ⟨fun hreceived => ?_, fun hok => ?_⟩
  · by_contra hfail
    have hcount : 0 + buffer.length ≤ buffer.length := by omega
    obtain ⟨e, he, -⟩ := receiveLoop_fails ended h hfail hcount buffer stream answers
    rw [receiveExact] at hreceived
    rw [hreceived] at he
    cases he
  · have hfront : ([] : List α).length + buffer.length ≤ buffer.length := by simp
    refine (receiveLoop_chunks ended h hok hfront hlen answers).trans ?_
    rw [receiveLoop_end ended (by simp), List.drop_length, List.append_nil, List.nil_append]

/-- If the stream ends before, the receiver throws, with all of it at the front. -/
theorem receiveExact_ended_iff (ended : ε) {buffer stream : List α}
    (hlen : stream.length < buffer.length) {bs : List β} (h : Chunks k.moved stream.length bs)
    {b : β} (hb : k.moved b = 0) (hend : k.fails b = none) (answers : List β) :
    k.receiveExact ended buffer stream (bs ++ b :: answers) =
        ⟨.threw ended, stream ++ buffer.drop stream.length, [], answers⟩ ↔
      ∀ b ∈ bs, k.fails b = none := by
  refine ⟨fun hreceived => ?_, fun hok => ?_⟩
  · by_contra hfail
    have hcount : 0 + stream.length ≤ buffer.length := by omega
    obtain ⟨e, -, hleft⟩ := receiveLoop_fails ended h hfail hcount buffer stream (b :: answers)
    rw [receiveExact] at hreceived
    rw [hreceived, List.length_cons] at hleft
    exact absurd hleft (by simp)
  · have hfront : ([] : List α).length + stream.length ≤ buffer.length := by simpa using hlen.le
    refine (receiveLoop_chunks ended h hok hfront le_rfl (b :: answers)).trans ?_
    rw [List.nil_append, List.take_length, List.drop_length,
      receiveLoop_ended ended (by simpa using hlen) (by simp) hb hend]

end Calls
end Lib.Exact
