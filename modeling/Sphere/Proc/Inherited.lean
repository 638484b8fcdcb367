import Sphere.Proc.Pipes

/-! What a child is started with, and who keeps a child's input and output open. -/

namespace Sphere.Proc

open Lib.FileTable Lib.Transition

namespace Ends

/-- The numbers differ, and none of them was open. -/
structure Apart (f : Ends) (t : Table File) : Prop where
  distinct : (f.outR ≠ f.outW ∧ f.outR ≠ f.inR ∧ f.outR ≠ f.inW) ∧
    (f.outW ≠ f.inR ∧ f.outW ≠ f.inW) ∧ f.inR ≠ f.inW
  free : ∀ fd ∈ f.list, t fd = none

variable {f : Ends} {t : Table File} {k : ℕ}

theorem put_eq_none {fd n : ℕ} {e : Entry File} (h : (t.put fd e) n = none) :
    n ≠ fd ∧ t n = none := by
  unfold Table.put at h
  rw [Function.update_apply] at h
  split_ifs at h with hn
  exact ⟨hn, h⟩

theorem Given.apart (h : f.Given t k) : f.Apart t := by
  obtain ⟨hwr, hw⟩ := put_eq_none h.outW.1
  obtain ⟨hiw, hi⟩ := put_eq_none h.inR.1
  obtain ⟨hir, hi⟩ := put_eq_none hi
  obtain ⟨hji, hj⟩ := put_eq_none h.inW.1
  obtain ⟨hjw, hj⟩ := put_eq_none hj
  obtain ⟨hjr, hj⟩ := put_eq_none hj
  refine ⟨⟨⟨hwr.symm, hir.symm, hjr.symm⟩, ⟨hiw.symm, hjw.symm⟩, hji.symm⟩, fun fd hfd => ?_⟩
  · simp only [list, List.mem_cons, List.not_mem_nil, or_false] at hfd
    rcases hfd with rfl | rfl | rfl | rfl
    · exact h.outR.1
    · exact hw
    · exact hi
    · exact hj

/-- A number that is open is none of the new ones. -/
theorem Apart.ne (h : f.Apart t) {fd n : ℕ} (hfd : fd ∈ f.list) (hn : (t n).isSome) :
    fd ≠ n := by
  rintro rfl
  rw [h.free fd hfd] at hn
  cases hn

/-- When 0 is free it is the first end that is made, when 1 is it is one of the output's. -/
theorem Given.zero (h : f.Given t k) (h0 : t 0 = none) : f.outR = 0 :=
  Nat.le_zero.mp (h.outR.le_of_free h0)

theorem Given.one (h : f.Given t k) (h1 : t 1 = none) : f.outR = 1 ∨ f.outW = 1 := by
  have hle := h.outR.le_of_free h1
  by_cases hone : f.outR = 1
  · exact .inl hone
  · right
    have hzero : f.outR = 0 := by omega
    have hfree : (t.put f.outR ⟨.output k .reader, true⟩) 1 = none := by
      unfold Table.put
      rw [hzero, Function.update_of_ne (by decide), h1]
    have hle' := h.outW.le_of_free hfree
    have hne := (put_eq_none h.outW.1).1
    omega

/-- There are three new numbers below the one that the parent writes to. -/
theorem Given.three (h : f.Given t k) : 2 < f.inW := by
  have hw := h.outR.le_of_free (put_eq_none h.outW.1).2
  have hwr := (put_eq_none h.outW.1).1
  have hi := h.outW.le_of_free (put_eq_none h.inR.1).2
  have hiw := (put_eq_none h.inR.1).1
  have hj := h.inR.le_of_free (put_eq_none h.inW.1).2
  have hji := (put_eq_none h.inW.1).1
  omega

end Ends

/-- What the program is started with: the ends of its own pipes in the place of 0 and 1, as far
as these were open, and what was not to be closed. -/
theorem setup_table {f : Ends} {p t t' : Table File} {k : ℕ} (hf : f.Given p k)
    (hin : t f.inR = some ⟨.input k .reader, false⟩)
    (hout : t f.outW = some ⟨.output k .writer, true⟩)
    (hrun : run Table.call t (setup f) = some t') (fd : ℕ) :
    t' fd = if fd = 0 then (p 0).map fun _ => ⟨.input k .reader, false⟩
      else if fd = 1 then (p 1).map fun _ => ⟨.output k .writer, false⟩
      else if fd ∈ f.list then none else (t fd).filter (!·.cloexec) := by
  have hapart := hf.apart
  obtain ⟨⟨hrw, hri, hrj⟩, ⟨hwi, hwj⟩, hij⟩ := hapart.distinct
  have hzero : ∀ n ∈ f.list, (p 0).isSome → n ≠ 0 := fun n hn h0 => hapart.ne hn h0
  have hone : ∀ n ∈ f.list, (p 1).isSome → n ≠ 1 := fun n hn h1 => hapart.ne hn h1
  have hw0 : f.outW ≠ 0 := by
    cases h0 : p 0 with
    | none => exact fun hw => hrw ((hf.zero h0).trans hw.symm)
    | some e => exact hzero _ (by simp [Ends.list]) (by rw [h0]; rfl)
  -- the input takes the place of 0
  obtain ⟨t₁, ht₁, hsame₁, hput₁, hleft₁⟩ := Table.dup2_of hin 0
  have hstdin : t₁ 0 = some ⟨.input k .reader, false⟩ := by
    by_cases h0 : f.inR = 0
    · rw [hleft₁ h0, ← h0, hin]
    · exact hput₁ h0
  have hout₁ : ((t₁.close f.inR).close f.inW) f.outW = some ⟨.output k .writer, true⟩ := by
    rw [Table.close_of_ne hwj, Table.close_of_ne hwi, hsame₁ _ hw0, hout]
  -- and the output that of 1
  obtain ⟨t₂, ht₂, hsame₂, hput₂, -⟩ := Table.dup2_of hout₁ 1
  have hfinal : t' = ((t₂.close f.outW).close f.outR).exec := by
    simp only [run, setup, Table.call, ht₁, ht₂, Option.bind_some, Option.some.injEq] at hrun
    exact hrun.symm
  have hopen : ∀ n, n ≠ f.outR → n ≠ f.outW → t' n = (t₂ n).filter (!·.cloexec) := by
    intro n hr hw
    rw [hfinal, Table.exec, Table.close_of_ne hr, Table.close_of_ne hw]
  have hshut : t' f.outR = none ∧ t' f.outW = none := by
    rw [hfinal]
    simp only [Table.exec, Table.close_self, Table.close_of_ne (Ne.symm hrw), Option.filter_none,
      and_self]
  split_ifs with h0 h1 hmem
  · subst h0
    cases hp : p 0 with
    | none => rw [← hf.zero hp, hshut.1]; rfl
    | some e =>
      have hne := fun n hn => (hzero n hn (by rw [hp]; rfl)).symm
      rw [hopen 0 (hne _ (by simp [Ends.list])) (hne _ (by simp [Ends.list])),
        hsame₂ 0 (by decide), Table.close_of_ne (hne _ (by simp [Ends.list])),
        Table.close_of_ne (hne _ (by simp [Ends.list])), hstdin]
      rfl
  · subst h1
    cases hp : p 1 with
    | none =>
      rcases hf.one hp with hr | hw
      · rw [← hr, hshut.1]; rfl
      · rw [← hw, hshut.2]; rfl
    | some e =>
      have hne := fun n hn => (hone n hn (by rw [hp]; rfl)).symm
      rw [hopen 1 (hne _ (by simp [Ends.list])) (hne _ (by simp [Ends.list])),
        hput₂ (hone _ (by simp [Ends.list]) (by rw [hp]; rfl))]
      rfl
  · simp only [Ends.list, List.mem_cons, List.not_mem_nil, or_false] at hmem
    rcases hmem with rfl | rfl | rfl | rfl
    · exact hshut.1
    · exact hshut.2
    · rw [hopen _ (Ne.symm hri) (Ne.symm hwi), hsame₂ _ h1, Table.close_of_ne hij,
        Table.close_self]
      rfl
    · rw [hopen _ (Ne.symm hrj) (Ne.symm hwj), hsame₂ _ h1, Table.close_self]
      rfl
  · simp only [Ends.list, List.mem_cons, List.not_mem_nil, or_false, not_or] at hmem
    obtain ⟨hr, hw, hi, hj⟩ := hmem
    rw [hopen fd hr hw, hsame₂ fd h1, Table.close_of_ne hj, Table.close_of_ne hi, hsame₁ fd h0]

/-! What the events of an object do to its ends. -/

/-- The ends after the event. -/
def Event.ends : Event → Descriptor × Descriptor → Descriptor × Descriptor
  | .closeStdin, d => (d.1.close, d.2)
  | .dup2 out ok, d => if ok then if out then (d.1, d.2.close) else (d.1.close, d.2) else d
  | .close, d | .destroy, d | .exit true, d => (d.1.close, d.2.close)
  | .pipes (some (out, inp)), _ => (⟨inp⟩, ⟨out⟩)
  | _, d => d

def Process.ends (o : Process) : Descriptor × Descriptor := (o.writeToChild, o.readFromChild)

theorem Process.step_ends {o o' : Process} {e : Event} (h : o.step e = some o') :
    o'.ends = e.ends o.ends := by
  -- the steps that ask whether something holds
  have hite {c : Prop} [Decidable c] {p : Process} (h : (if c then some p else none) = some o')
      (hp : p.ends = e.ends o.ends) : o'.ends = e.ends o.ends := by
    obtain ⟨-, h⟩ := Option.ite_none_right_eq_some.mp h
    exact Option.some.inj h ▸ hp
  have hsome {p : Process} (h : some p = some o') (hp : p.ends = e.ends o.ends) :
      o'.ends = e.ends o.ends := Option.some.inj h ▸ hp
  unfold Process.step at h
  split at h
  · exact hsome h rfl
  · exact hite h rfl
  · exact hsome h rfl
  · exact hsome h rfl
  · exact hsome h rfl
  · exact hite h rfl
  · exact hsome h rfl
  · exact hsome h rfl
  · exact hsome h rfl
  · exact hite h rfl
  · exact hsome h rfl
  · exact hsome h rfl
  · exact hsome h rfl
  · exact hite h rfl
  · exact hsome h rfl
  · exact hsome h rfl
  · exact hsome h rfl
  · exact hsome h rfl
  · exact hite h rfl
  · cases h

theorem Object.goes_ends {o o' : Object} {events : List Event} (h : o.goes events = some o') :
    o'.opening = o.opening ∧ o'.ends = events.foldl (fun d e => e.ends d) o.ends := by
  obtain ⟨p, hrun, rfl⟩ := Option.map_eq_some_iff.mp h
  refine ⟨rfl, ?_⟩
  change p.ends = _
  clear h
  generalize o.toProcess = q at hrun ⊢
  induction events generalizing q with
  | nil =>
    obtain rfl := Option.some.inj hrun
    rfl
  | cons e events ih =>
    obtain ⟨q', hstep, hrest⟩ := run_cons_some hrun
    rw [ih q' hrest, Process.step_ends hstep, List.foldl_cons]

theorem release_eq_some {t : Table File} {d : Descriptor} {fd : ℕ} {e : Entry File} :
    release t d fd = some e ↔ t fd = some e ∧ d.fd ≠ fd := by
  unfold release Descriptor.valid
  split_ifs with hv
  · have hv : -1 < d.fd := by simpa using hv
    rw [Table.close_eq_some, and_comm]
    refine and_congr_right fun _ => ?_
    omega
  · have hv : ¬ -1 < d.fd := by simpa using hv
    exact ⟨fun h => ⟨h, by omega⟩, fun h => h.1⟩

theorem releaseEnds_eq_some {t : Table File} {o : Object} {fd : ℕ} {e : Entry File} :
    o.releaseEnds t fd = some e ↔
      t fd = some e ∧ o.writeToChild.fd ≠ fd ∧ o.readFromChild.fd ≠ fd := by
  unfold Object.releaseEnds
  rw [release_eq_some, release_eq_some, and_assoc]

/-- The `open` that made the pipe. -/
def File.opening : File → Option ℕ
  | .other => none
  | .input k _ | .output k _ => some k

/-- The descriptor is one of the object's ends. -/
def Object.Owns (o : Object) (fd : ℕ) (e : Entry File) : Prop :=
  ∃ k, o.opening = some k ∧
    ((o.writeToChild.fd = fd ∧ e = ⟨.input k .writer, false⟩) ∨
      (o.readFromChild.fd = fd ∧ e = ⟨.output k .reader, true⟩))

namespace Pipes

theorem valid_iff (d : Descriptor) : d.valid = true ↔ ∃ fd : ℕ, d.fd = fd := by
  unfold Descriptor.valid
  rw [decide_eq_true_iff]
  constructor
  · intro h
    exact ⟨d.fd.toNat, (Int.toNat_of_nonneg (by omega)).symm⟩
  · rintro ⟨fd, hfd⟩
    omega

/-- Of the pipes the parent has the ends that its objects have. -/
structure Holds (σ : Pipes) : Prop where
  write : ∀ (i : ℕ) (o : Object) (fd : ℕ), σ.objects[i]? = some o → o.writeToChild.fd = fd →
    ∃ k, o.opening = some k ∧ σ.table fd = some ⟨.input k .writer, false⟩
  read : ∀ (i : ℕ) (o : Object) (fd : ℕ), σ.objects[i]? = some o → o.readFromChild.fd = fd →
    ∃ k, o.opening = some k ∧ σ.table fd = some ⟨.output k .reader, true⟩
  files : ∀ fd e, σ.table fd = some e →
    e.file = .other ∨ ∃ (i : ℕ) (o : Object), σ.objects[i]? = some o ∧ o.Owns fd e
  apart : ∀ (i j : ℕ) (o o' : Object) (k : ℕ), σ.objects[i]? = some o → σ.objects[j]? = some o' →
    o.opening = some k → o'.opening = some k → i = j
  lt : ∀ (i : ℕ) (o : Object) (k : ℕ), σ.objects[i]? = some o → o.opening = some k → k < σ.next
  three : ∀ (i : ℕ) (o : Object) (fd : ℕ), σ.objects[i]? = some o → o.writeToChild.fd = fd → 2 < fd

variable {σ σ' : Pipes} {i : ℕ} {o o' : Object}

theorem Holds.owns (h : σ.Holds) (ho : σ.objects[i]? = some o) {fd : ℕ} {e : Entry File}
    (hown : o.Owns fd e) : σ.table fd = some e := by
  obtain ⟨k, hk, ⟨hfd, rfl⟩ | ⟨hfd, rfl⟩⟩ := hown
  · obtain ⟨k', hk', htable⟩ := h.write i o fd ho hfd
    rwa [Option.some.inj (hk.symm.trans hk')]
  · obtain ⟨k', hk', htable⟩ := h.read i o fd ho hfd
    rwa [Option.some.inj (hk.symm.trans hk')]

/-- One object is changed, with the descriptors of its own pipes. -/
theorem Holds.set (h : σ.Holds) (ho : σ.objects[i]? = some o)
    (hobjects : σ'.objects = σ.objects.set i o') (hle : σ.next ≤ σ'.next)
    (hopen : o'.opening = o.opening ∨ o'.opening = some σ.next ∧ σ.next < σ'.next)
    (hends : ∀ fd : ℕ, o'.writeToChild.fd = fd ∨ o'.readFromChild.fd = fd →
      o'.opening.isSome)
    (hthree : ∀ fd : ℕ, o'.writeToChild.fd = fd → 2 < fd)
    (hown : ∀ fd e, o'.Owns fd e → σ'.table fd = some e)
    (hfiles : ∀ fd e, σ'.table fd = some e → o'.Owns fd e ∨ σ.table fd = some e ∧ ¬ o.Owns fd e)
    (hkeep : ∀ fd e, σ.table fd = some e → ¬ o.Owns fd e → σ'.table fd = some e) :
    σ'.Holds := by
  have hlt : i < σ.objects.length := (List.getElem?_eq_some_iff.mp ho).1
  -- an object of the new list
  have hcases : ∀ {j : ℕ} {d : Object}, σ'.objects[j]? = some d →
      j = i ∧ d = o' ∨ j ≠ i ∧ σ.objects[j]? = some d := by
    intro j d hd
    rw [hobjects] at hd
    by_cases hj : j = i
    · subst hj
      rw [List.getElem?_set_self hlt] at hd
      exact .inl ⟨rfl, (Option.some.inj hd).symm⟩
    · rw [List.getElem?_set_ne (Ne.symm hj)] at hd
      exact .inr ⟨hj, hd⟩
  -- what another object has is not `o`'s
  have hother : ∀ {j : ℕ} {d : Object} {fd : ℕ} {e : Entry File}, j ≠ i →
      σ.objects[j]? = some d → d.Owns fd e → ¬ o.Owns fd e := by
    rintro j d fd e hj hd ⟨k, hk, he⟩ ⟨k', hk', he'⟩
    refine hj (h.apart j i d o k hd ho hk ?_)
    rcases he with ⟨-, rfl⟩ | ⟨-, rfl⟩ <;> rcases he' with ⟨-, he'⟩ | ⟨-, he'⟩ <;> simp_all
  have hfresh : ∀ {j : ℕ} {d : Object} {k : ℕ}, j ≠ i → σ.objects[j]? = some d →
      d.opening = some k → o'.opening ≠ some k := by
    intro j d k hj hd hk hk'
    rcases hopen with he | ⟨he, -⟩
    · exact hj (h.apart j i d o k hd ho hk (he.symm.trans hk'))
    · have hlt := h.lt j d k hd hk
      rw [he] at hk'
      exact hlt.ne (Option.some.inj hk').symm
  refine ⟨fun j d fd hd hfd => ?_, fun j d fd hd hfd => ?_, fun fd e he => ?_,
    fun j j' d d' k hd hd' hk hk' => ?_, fun j d k hd hk => ?_, fun j d fd hd hfd => ?_⟩
  · rcases hcases hd with ⟨-, rfl⟩ | ⟨hj, hd⟩
    · obtain ⟨k, hk⟩ := Option.isSome_iff_exists.mp (hends fd (.inl hfd))
      exact ⟨k, hk, hown _ _ ⟨k, hk, .inl ⟨hfd, rfl⟩⟩⟩
    · obtain ⟨k, hk, htable⟩ := h.write j d fd hd hfd
      exact ⟨k, hk, hkeep _ _ htable (hother hj hd ⟨k, hk, .inl ⟨hfd, rfl⟩⟩)⟩
  · rcases hcases hd with ⟨-, rfl⟩ | ⟨hj, hd⟩
    · obtain ⟨k, hk⟩ := Option.isSome_iff_exists.mp (hends fd (.inr hfd))
      exact ⟨k, hk, hown _ _ ⟨k, hk, .inr ⟨hfd, rfl⟩⟩⟩
    · obtain ⟨k, hk, htable⟩ := h.read j d fd hd hfd
      exact ⟨k, hk, hkeep _ _ htable (hother hj hd ⟨k, hk, .inr ⟨hfd, rfl⟩⟩)⟩
  · rcases hfiles fd e he with hown | ⟨he, hno⟩
    · exact .inr ⟨i, o', by rw [hobjects, List.getElem?_set_self hlt], hown⟩
    · rcases h.files fd e he with hnone | ⟨j, d, hd, hown⟩
      · exact .inl hnone
      · have hj : j ≠ i := by
          rintro rfl
          obtain rfl := Option.some.inj (ho.symm.trans hd)
          exact hno hown
        exact .inr ⟨j, d, by rw [hobjects, List.getElem?_set_ne (Ne.symm hj)]; exact hd, hown⟩
  · rcases hcases hd with ⟨rfl, rfl⟩ | ⟨hj, hd⟩ <;> rcases hcases hd' with ⟨rfl, rfl⟩ | ⟨hj', hd'⟩
    · rfl
    · exact absurd hk (hfresh hj' hd' hk')
    · exact absurd hk' (hfresh hj hd hk)
    · exact h.apart j j' d d' k hd hd' hk hk'
  · rcases hcases hd with ⟨-, rfl⟩ | ⟨-, hd⟩
    · rcases hopen with he | ⟨he, hnext⟩
      · exact (h.lt i o k ho (he ▸ hk)).trans_le hle
      · rw [he] at hk
        exact Option.some.inj hk ▸ hnext
    · exact (h.lt j d k hd hk).trans_le hle
  · rcases hcases hd with ⟨-, rfl⟩ | ⟨-, hd⟩
    · exact hthree fd hfd
    · exact h.three j d fd hd hfd

/-- Some of the object's ends are closed. -/
theorem Holds.released (h : σ.Holds) (ho : σ.objects[i]? = some o)
    (hobjects : σ'.objects = σ.objects.set i o') (hnext : σ'.next = σ.next)
    (hopen : o'.opening = o.opening)
    (hends : ∀ fd : ℕ, (o'.writeToChild.fd = fd → o.writeToChild.fd = fd) ∧
      (o'.readFromChild.fd = fd → o.readFromChild.fd = fd))
    (htable : ∀ fd e, σ'.table fd = some e ↔
      σ.table fd = some e ∧ (o.Owns fd e → o'.Owns fd e)) : σ'.Holds := by
  have hback : ∀ {fd e}, o'.Owns fd e → o.Owns fd e := by
    rintro fd e ⟨k, hk, ⟨hfd, he⟩ | ⟨hfd, he⟩⟩
    · exact ⟨k, hopen ▸ hk, .inl ⟨(hends fd).1 hfd, he⟩⟩
    · exact ⟨k, hopen ▸ hk, .inr ⟨(hends fd).2 hfd, he⟩⟩
  refine h.set ho hobjects hnext.ge (.inl hopen) (fun fd hfd => ?_)
    (fun fd hfd => h.three i o fd ho ((hends fd).1 hfd)) (fun fd e hown => ?_)
    (fun fd e he => ?_) fun fd e he hno => (htable fd e).mpr ⟨he, fun hown => absurd hown hno⟩
  · rw [hopen]
    rcases hfd with hfd | hfd
    · obtain ⟨k, hk, -⟩ := h.write i o fd ho ((hends fd).1 hfd)
      rw [hk]
      rfl
    · obtain ⟨k, hk, -⟩ := h.read i o fd ho ((hends fd).2 hfd)
      rw [hk]
      rfl
  · exact (htable fd e).mpr ⟨h.owns ho (hback hown), fun _ => hown⟩
  · obtain ⟨he, hkeep⟩ := (htable fd e).mp he
    by_cases hown : o.Owns fd e
    · exact .inl (hkeep hown)
    · exact .inr ⟨he, hown⟩

/-- The object has the ends of two new pipes. -/
theorem Holds.piped (h : σ.Holds) (ho : σ.objects[i]? = some o)
    (hobjects : σ'.objects = σ.objects.set i o') (hnext : σ'.next = σ.next + 1)
    (hopen : o'.opening = some σ.next) (hthree : ∀ fd : ℕ, o'.writeToChild.fd = fd → 2 < fd)
    (htable : ∀ fd e, σ'.table fd = some e ↔
      o'.Owns fd e ∨ σ.table fd = some e ∧ ¬ o.Owns fd e) : σ'.Holds := by
  refine h.set ho hobjects (by omega) (.inr ⟨hopen, by omega⟩) (fun _ _ => ?_) hthree
    (fun fd e hown => (htable fd e).mpr (.inl hown)) (fun fd e he => (htable fd e).mp he)
    fun fd e he hno => (htable fd e).mpr (.inr ⟨he, hno⟩)
  rw [hopen]
  rfl

/-- The parent's own files are opened and closed. -/
theorem Holds.other (h : σ.Holds) (hobjects : σ'.objects = σ.objects) (hnext : σ'.next = σ.next)
    (htable : ∀ fd e, e.file ≠ .other → (σ'.table fd = some e ↔ σ.table fd = some e)) :
    σ'.Holds := by
  refine ⟨fun i o fd ho hfd => ?_, fun i o fd ho hfd => ?_, fun fd e he => ?_, ?_, ?_, ?_⟩
  · obtain ⟨k, hk, he⟩ := h.write i o fd (hobjects ▸ ho) hfd
    exact ⟨k, hk, (htable _ _ (by simp)).mpr he⟩
  · obtain ⟨k, hk, he⟩ := h.read i o fd (hobjects ▸ ho) hfd
    exact ⟨k, hk, (htable _ _ (by simp)).mpr he⟩
  · by_cases hf : e.file = .other
    · exact .inl hf
    · rw [hobjects]
      exact h.files fd e ((htable fd e hf).mp he)
  · rw [hobjects]
    exact h.apart
  · rw [hobjects, hnext]
    exact h.lt
  · rw [hobjects]
    exact h.three

/-- One more object, without pipes. -/
theorem Holds.blank (h : σ.Holds) :
    ({ σ with objects := σ.objects ++ [⟨{}, none⟩] } : Pipes).Holds := by
  have hcases : ∀ {j : ℕ} {d : Object}, (σ.objects ++ [(⟨{}, none⟩ : Object)])[j]? = some d →
      σ.objects[j]? = some d ∨ d = ⟨{}, none⟩ := by
    intro j d hd
    rcases lt_or_ge j σ.objects.length with hj | hj
    · exact .inl (by rwa [List.getElem?_append_left hj] at hd)
    · rw [List.getElem?_append_right hj] at hd
      exact .inr (List.mem_singleton.mp (List.mem_of_getElem? hd))
  refine ⟨fun j d fd hd hfd => ?_, fun j d fd hd hfd => ?_, fun fd e he => ?_,
    fun j j' d d' k hd hd' hk hk' => ?_, fun j d k hd hk => ?_, fun j d fd hd hfd => ?_⟩
  · rcases hcases hd with hd | rfl
    · exact h.write j d fd hd hfd
    · cases hfd
  · rcases hcases hd with hd | rfl
    · exact h.read j d fd hd hfd
    · cases hfd
  · refine (h.files fd e he).imp id ?_
    rintro ⟨j, d, hd, hown⟩
    exact ⟨j, d, by
      rw [List.getElem?_append_left (List.getElem?_eq_some_iff.mp hd).1]; exact hd, hown⟩
  · rcases hcases hd with hd | rfl
    · rcases hcases hd' with hd' | rfl
      · exact h.apart j j' d d' k hd hd' hk hk'
      · cases hk'
    · cases hk
  · rcases hcases hd with hd | rfl
    · exact h.lt j d k hd hk
    · cases hk
  · rcases hcases hd with hd | rfl
    · exact h.three j d fd hd hfd
    · cases hfd

theorem Holds.not_owns_iff (h : σ.Holds) (ho : σ.objects[i]? = some o) {fd : ℕ}
    {e : Entry File} (he : σ.table fd = some e) :
    (o.writeToChild.fd ≠ fd ∧ o.readFromChild.fd ≠ fd) ↔ ¬ o.Owns fd e := by
  constructor
  · rintro ⟨hw, hr⟩ ⟨k, -, ⟨hfd, -⟩ | ⟨hfd, -⟩⟩
    · exact hw hfd
    · exact hr hfd
  · intro hno
    refine ⟨fun hfd => hno ?_, fun hfd => hno ?_⟩
    · obtain ⟨k, hk, htable⟩ := h.write i o fd ho hfd
      exact ⟨k, hk, .inl ⟨hfd, Option.some.inj (he.symm.trans htable)⟩⟩
    · obtain ⟨k, hk, htable⟩ := h.read i o fd ho hfd
      exact ⟨k, hk, .inr ⟨hfd, Option.some.inj (he.symm.trans htable)⟩⟩

/-- The descriptors of the child from `fork`. -/
theorem Holds.piped_eq_some (h : σ.Holds) (ho : σ.objects[i]? = some o) {f : Ends}
    (hf : f.Given σ.table σ.next) {fd : ℕ} {e : Entry File} :
    σ.piped o f fd = some e ↔
      (fd = f.outR ∧ e = ⟨.output σ.next .reader, true⟩) ∨
      (fd = f.outW ∧ e = ⟨.output σ.next .writer, true⟩) ∨
      (fd = f.inR ∧ e = ⟨.input σ.next .reader, false⟩) ∨
      (fd = f.inW ∧ e = ⟨.input σ.next .writer, false⟩) ∨
      σ.table fd = some e ∧ ¬ o.Owns fd e := by
  have hapart := hf.apart
  obtain ⟨⟨hrw, hri, hrj⟩, ⟨hwi, hwj⟩, hij⟩ := hapart.distinct
  -- a new number is not one of the object's
  have hnew : ∀ n ∈ f.list, o.writeToChild.fd ≠ n ∧ o.readFromChild.fd ≠ n := by
    intro n hn
    refine ⟨fun hfd => ?_, fun hfd => ?_⟩
    · obtain ⟨k, -, htable⟩ := h.write i o n ho hfd
      rw [hapart.free n hn] at htable
      cases htable
    · obtain ⟨k, -, htable⟩ := h.read i o n ho hfd
      rw [hapart.free n hn] at htable
      cases htable
  unfold Pipes.piped pipeIn pipeOut
  rw [releaseEnds_eq_some]
  simp only [Table.put_eq_some]
  constructor
  · rintro ⟨⟨rfl, rfl⟩ | ⟨-, ⟨rfl, rfl⟩ | ⟨-, ⟨rfl, rfl⟩ | ⟨-, ⟨rfl, rfl⟩ | ⟨-, he⟩⟩⟩⟩, hends⟩
    · exact .inr (.inr (.inr (.inl ⟨rfl, rfl⟩)))
    · exact .inr (.inr (.inl ⟨rfl, rfl⟩))
    · exact .inr (.inl ⟨rfl, rfl⟩)
    · exact .inl ⟨rfl, rfl⟩
    · exact .inr (.inr (.inr (.inr ⟨he, (h.not_owns_iff ho he).mp hends⟩)))
  · rintro (⟨rfl, rfl⟩ | ⟨rfl, rfl⟩ | ⟨rfl, rfl⟩ | ⟨rfl, rfl⟩ | ⟨he, hno⟩)
    · exact ⟨.inr ⟨hrj, .inr ⟨hri, .inr ⟨hrw, .inl ⟨rfl, rfl⟩⟩⟩⟩, hnew _ (by simp [Ends.list])⟩
    · exact ⟨.inr ⟨hwj, .inr ⟨hwi, .inl ⟨rfl, rfl⟩⟩⟩, hnew _ (by simp [Ends.list])⟩
    · exact ⟨.inr ⟨hij, .inl ⟨rfl, rfl⟩⟩, hnew _ (by simp [Ends.list])⟩
    · exact ⟨.inl ⟨rfl, rfl⟩, hnew _ (by simp [Ends.list])⟩
    · have hne : ∀ n ∈ f.list, fd ≠ n := fun n hn => (hapart.ne hn (by rw [he]; rfl)).symm
      exact ⟨.inr ⟨hne _ (by simp [Ends.list]), .inr ⟨hne _ (by simp [Ends.list]),
        .inr ⟨hne _ (by simp [Ends.list]), .inr ⟨hne _ (by simp [Ends.list]), he⟩⟩⟩⟩,
        (h.not_owns_iff ho he).mpr hno⟩

/-- The descriptors of the parent when `open` is over. -/
theorem Holds.opened_eq_some (h : σ.Holds) (ho : σ.objects[i]? = some o) {f : Ends}
    (hf : f.Given σ.table σ.next) (hopen : o'.opening = some σ.next)
    (hends : o'.ends = (⟨f.inW⟩, ⟨f.outR⟩)) (fd : ℕ) (e : Entry File) :
    ((σ.piped o f).close f.inR).close f.outW fd = some e ↔
      o'.Owns fd e ∨ σ.table fd = some e ∧ ¬ o.Owns fd e := by
  have hapart := hf.apart
  obtain ⟨⟨hrw, hri, hrj⟩, ⟨hwi, hwj⟩, hij⟩ := hapart.distinct
  obtain ⟨hw, hr⟩ := Prod.mk.inj hends
  have howns : o'.Owns fd e ↔ (fd = f.outR ∧ e = ⟨.output σ.next .reader, true⟩) ∨
      (fd = f.inW ∧ e = ⟨.input σ.next .writer, false⟩) := by
    unfold Object.Owns
    rw [hw, hr, hopen]
    constructor
    · rintro ⟨k, hk, ⟨hfd, rfl⟩ | ⟨hfd, rfl⟩⟩
      · exact .inr ⟨(Int.ofNat.inj hfd).symm, by rw [Option.some.inj hk]⟩
      · exact .inl ⟨(Int.ofNat.inj hfd).symm, by rw [Option.some.inj hk]⟩
    · rintro (⟨rfl, rfl⟩ | ⟨rfl, rfl⟩)
      · exact ⟨_, rfl, .inr ⟨rfl, rfl⟩⟩
      · exact ⟨_, rfl, .inl ⟨rfl, rfl⟩⟩
  rw [Table.close_eq_some, Table.close_eq_some, h.piped_eq_some ho hf, howns]
  constructor
  · rintro ⟨hnw, hni, ho' | ⟨rfl, -⟩ | ⟨rfl, -⟩ | hi' | hold⟩
    · exact .inl (.inl ho')
    · exact absurd rfl hnw
    · exact absurd rfl hni
    · exact .inl (.inr hi')
    · exact .inr hold
  · rintro ((⟨rfl, rfl⟩ | ⟨rfl, rfl⟩) | ⟨he, hno⟩)
    · exact ⟨hrw, hri, .inl ⟨rfl, rfl⟩⟩
    · exact ⟨Ne.symm hwj, Ne.symm hij, .inr (.inr (.inr (.inl ⟨rfl, rfl⟩)))⟩
    · have hne : ∀ n ∈ f.list, fd ≠ n := fun n hn => (hapart.ne hn (by rw [he]; rfl)).symm
      exact ⟨hne _ (by simp [Ends.list]), hne _ (by simp [Ends.list]),
        .inr (.inr (.inr (.inr ⟨he, hno⟩)))⟩

theorem Holds.inputOf_iff (h : σ.Holds) (ho : σ.objects[i]? = some o) {k : ℕ} :
    o.inputOf σ.table = some k ↔ o.writeToChild.valid = true ∧ o.opening = some k := by
  unfold Object.inputOf
  constructor
  · intro hk
    obtain ⟨hv, hk⟩ := Option.ite_none_right_eq_some.mp hk
    obtain ⟨fd, hfd⟩ := (valid_iff _).mp hv
    obtain ⟨k', hk', htable⟩ := h.write i o fd ho hfd
    rw [hfd, Int.toNat_natCast, htable] at hk
    obtain rfl : k' = k := Option.some.inj hk
    exact ⟨hv, hk'⟩
  · rintro ⟨hv, hk⟩
    obtain ⟨fd, hfd⟩ := (valid_iff _).mp hv
    obtain ⟨k', hk', htable⟩ := h.write i o fd ho hfd
    obtain rfl : k' = k := Option.some.inj (hk'.symm.trans hk)
    rw [if_pos hv, hfd, Int.toNat_natCast, htable]
    rfl

theorem Holds.outputOf_iff (h : σ.Holds) (ho : σ.objects[i]? = some o) {k : ℕ} :
    o.outputOf σ.table = some k ↔ o.readFromChild.valid = true ∧ o.opening = some k := by
  unfold Object.outputOf
  constructor
  · intro hk
    obtain ⟨hv, hk⟩ := Option.ite_none_right_eq_some.mp hk
    obtain ⟨fd, hfd⟩ := (valid_iff _).mp hv
    obtain ⟨k', hk', htable⟩ := h.read i o fd ho hfd
    rw [hfd, Int.toNat_natCast, htable] at hk
    obtain rfl : k' = k := Option.some.inj hk
    exact ⟨hv, hk'⟩
  · rintro ⟨hv, hk⟩
    obtain ⟨fd, hfd⟩ := (valid_iff _).mp hv
    obtain ⟨k', hk', htable⟩ := h.read i o fd ho hfd
    obtain rfl : k' = k := Option.some.inj (hk'.symm.trans hk)
    rw [if_pos hv, hfd, Int.toNat_natCast, htable]
    rfl

theorem Holds.mem_shared (h : σ.Holds) {k : ℕ} : k ∈ σ.shared i ↔
    ∃ (j : ℕ) (d : Object), j ≠ i ∧ σ.objects[j]? = some d ∧ d.writeToChild.valid = true ∧
      d.opening = some k := by
  unfold shared
  rw [List.mem_filterMap]
  constructor
  · rintro ⟨d, hd, hk⟩
    obtain ⟨j, hj, hd⟩ := List.mem_eraseIdx_iff_getElem?.mp hd
    exact ⟨j, d, hj, hd, (h.inputOf_iff hd).mp hk⟩
  · rintro ⟨j, d, hj, hd, hk⟩
    exact ⟨d, List.mem_eraseIdx_iff_getElem?.mpr ⟨j, hj, hd⟩, (h.inputOf_iff hd).mpr hk⟩

end Pipes

/-- How far a child is with its calls: it has exited, it goes on with them, or its program runs. -/
inductive Kid.Comes (c : Kid) : Prop
  | exited (hx : c.exited = true) (htable : c.table = .none) (htodo : c.todo = [])
  | setsUp (hx : c.exited = false) (himage : c.image = none) (done : List Lib.FileTable.Call)
      (hdone : done ++ c.todo = setup c.ends) (hne : c.todo ≠ [])
      (hrun : run Table.call c.forked done = some c.table)
  | runs (hx : c.exited = false) (himage : c.image.isSome) (htodo : c.todo = [])

/-- What is so of a child from `fork` on. -/
structure Kid.Sound (c : Kid) : Prop where
  given : c.ends.Given c.parent c.opening
  input : c.forked c.ends.inR = some ⟨.input c.opening .reader, false⟩
  output : c.forked c.ends.outW = some ⟨.output c.opening .writer, true⟩
  forked : ∀ fd e, c.forked fd = some e → fd ∈ c.ends.list ∨ e.file = .other ∨
    (∃ k, e = ⟨.output k .reader, true⟩) ∨ ∃ k ∈ c.shared, e = ⟨.input k .writer, false⟩
  shared : ∀ k ∈ c.shared, ∃ fd, 1 < fd ∧ fd ∉ c.ends.list ∧
    c.forked fd = some ⟨.input k .writer, false⟩
  image : ∀ t, c.image = some t → run Table.call c.forked (setup c.ends) = some t
  comes : c.Comes

theorem Kid.Sound.exit {c : Kid} (h : c.Sound) : c.exit.Sound :=
  ⟨h.given, h.input, h.output, h.forked, h.shared, h.image, .exited rfl rfl rfl⟩

/-- The calls end with the only `exec`. -/
theorem setup_split {f : Ends} {done todo : List Lib.FileTable.Call} {call : Lib.FileTable.Call}
    (h : done ++ call :: todo = setup f) : call = .exec ↔ todo = [] := by
  have hlast : setup f = (setup f).dropLast ++ [.exec] := rfl
  constructor
  · rintro rfl
    by_contra hne
    obtain ⟨more, last, rfl⟩ := (List.eq_nil_or_concat todo).resolve_left hne
    rw [hlast, List.concat_eq_append, ← List.cons_append, ← List.append_assoc] at h
    obtain ⟨hfront, -⟩ := List.append_inj' h rfl
    have hmem : Lib.FileTable.Call.exec ∈ (setup f).dropLast := by
      rw [← hfront]
      simp
    simp [setup] at hmem
  · rintro rfl
    rw [hlast] at h
    exact List.singleton_inj.mp (List.append_inj' h rfl).2

theorem Kid.Sound.next {c : Kid} (h : c.Sound) : c.next.Sound := by
  unfold Kid.next
  cases htodo : c.todo with
  | nil => exact h
  | cons call todo =>
    dsimp only
    cases hcall : c.table.call call with
    | none => exact h.exit
    | some t =>
      dsimp only
      rcases h.comes with ⟨-, -, hnil⟩ | ⟨hx, himage, done, hdone, -, hrun⟩ | ⟨-, -, hnil⟩
      · rw [htodo] at hnil
        cases hnil
      · have hrun' : run Table.call c.forked (done ++ [call]) = some t := by
          rw [run_append, hrun]
          simp [run, hcall]
        rw [htodo] at hdone
        have hdone' : (done ++ [call]) ++ todo = setup c.ends := by
          rw [List.append_assoc, List.singleton_append, hdone]
        have hexec := setup_split hdone
        by_cases hend : todo = []
        · -- the program starts with what the calls have left
          subst hend
          rw [if_pos (hexec.mpr rfl)]
          rw [List.append_nil] at hdone'
          rw [hdone'] at hrun'
          exact ⟨h.given, h.input, h.output, h.forked, h.shared,
            fun t' ht' => Option.some.inj ht' ▸ hrun', .runs hx rfl rfl⟩
        · rw [if_neg (mt hexec.mp hend)]
          exact ⟨h.given, h.input, h.output, h.forked, h.shared, h.image,
            .setsUp hx himage _ hdone' hend hrun'⟩
      · rw [htodo] at hnil
        cases hnil

theorem Kid.Sound.acts {c : Kid} (h : c.Sound) (t : Table File) : (c.acts t).Sound := by
  unfold Kid.acts
  split_ifs with hruns
  · refine ⟨h.given, h.input, h.output, h.forked, h.shared, h.image, ?_⟩
    rcases h.comes with ⟨hx, -, -⟩ | ⟨-, himage, -⟩ | ⟨hx, himage, htodo⟩
    · rw [hx] at hruns
      simp at hruns
    · rw [himage] at hruns
      simp at hruns
    · exact .runs hx himage htodo
  · exact h

namespace Pipes

variable {σ σ' : Pipes} {i : ℕ} {o o' : Object}

/-- A child as `fork` makes it. -/
theorem Holds.fork (h : σ.Holds) (ho : σ.objects[i]? = some o) {f : Ends}
    (hf : f.Given σ.table σ.next) : (⟨σ.next, f, σ.table, σ.piped o f, σ.shared i, none,
      σ.piped o f, setup f, false⟩ : Kid).Sound := by
  refine ⟨hf, ?_, ?_, fun fd e he => ?_, fun k hk => ?_, by simp,
    .setsUp rfl rfl [] rfl (by simp [setup]) rfl⟩
  · exact (h.piped_eq_some ho hf).mpr (.inr (.inr (.inl ⟨rfl, rfl⟩)))
  · exact (h.piped_eq_some ho hf).mpr (.inr (.inl ⟨rfl, rfl⟩))
  · rcases (h.piped_eq_some ho hf).mp he with ⟨rfl, -⟩ | ⟨rfl, -⟩ | ⟨rfl, -⟩ | ⟨rfl, -⟩ | ⟨he, hno⟩
    · exact .inl (by simp [Ends.list])
    · exact .inl (by simp [Ends.list])
    · exact .inl (by simp [Ends.list])
    · exact .inl (by simp [Ends.list])
    · rcases h.files fd e he with hother | ⟨j, d, hd, hown⟩
      · exact .inr (.inl hother)
      · have hj : j ≠ i := by
          rintro rfl
          obtain rfl := Option.some.inj (ho.symm.trans hd)
          exact hno hown
        obtain ⟨k, hk, ⟨hfd, rfl⟩ | ⟨-, rfl⟩⟩ := hown
        · exact .inr (.inr (.inr ⟨k, h.mem_shared.mpr
            ⟨j, d, hj, hd, (valid_iff _).mpr ⟨fd, hfd⟩, hk⟩, rfl⟩))
        · exact .inr (.inr (.inl ⟨k, rfl⟩))
  · obtain ⟨j, d, hj, hd, hv, hk⟩ := h.mem_shared.mp hk
    obtain ⟨fd, hfd⟩ := (valid_iff _).mp hv
    obtain ⟨k', hk', htable⟩ := h.write j d fd hd hfd
    obtain rfl : k' = k := Option.some.inj (hk'.symm.trans hk)
    have hno : ¬ o.Owns fd ⟨.input k' .writer, false⟩ := by
      rintro ⟨k₂, hk₂, ⟨-, he⟩ | ⟨-, he⟩⟩
      · simp only [Entry.mk.injEq, File.input.injEq, and_true] at he
        exact hj (h.apart j i d o k' hd ho hk' (he ▸ hk₂))
      · simp at he
    have hlow := h.three j d fd hd hfd
    refine ⟨fd, by omega, fun hmem => ?_,
      (h.piped_eq_some ho hf).mpr (.inr (.inr (.inr (.inr ⟨htable, hno⟩))))⟩
    rw [hf.apart.free _ hmem] at htable
    cases htable

/-- The parent's ends, and how far each child is. -/
structure Sound (σ : Pipes) : Prop extends Holds σ where
  kids : ∀ c ∈ σ.kids, c.Sound

theorem closed_ne (d : Descriptor) (fd : ℕ) : d.close.fd ≠ fd := by
  unfold Descriptor.close Descriptor.valid
  split_ifs with hv
  · exact fun h => by cases h
  · have hv : ¬ -1 < d.fd := by simpa using hv
    omega

/-- Both ends are closed. -/
theorem Holds.closed (h : σ.Holds) (ho : σ.objects[i]? = some o)
    (hobjects : σ'.objects = σ.objects.set i o') (hnext : σ'.next = σ.next)
    (hopen : o'.opening = o.opening) (hends : o'.ends = (o.ends.1.close, o.ends.2.close))
    (htable : σ'.table = o.releaseEnds σ.table) : σ'.Holds := by
  obtain ⟨hw, hr⟩ := Prod.mk.inj hends
  have hno : ∀ fd e, ¬ o'.Owns fd e := by
    rintro fd e ⟨k, -, ⟨hfd, -⟩ | ⟨hfd, -⟩⟩
    · exact closed_ne _ _ (hw ▸ hfd)
    · exact closed_ne _ _ (hr ▸ hfd)
  refine h.released ho hobjects hnext hopen (fun fd => ⟨fun hfd => ?_, fun hfd => ?_⟩)
    fun fd e => ?_
  · exact absurd (hw ▸ hfd) (closed_ne _ _)
  · exact absurd (hr ▸ hfd) (closed_ne _ _)
  · rw [htable, releaseEnds_eq_some]
    refine and_congr_right fun he => ?_
    rw [h.not_owns_iff ho he]
    exact ⟨fun hno' hown => absurd hown hno', fun himp hown => hno fd e (himp hown)⟩

theorem Holds.stdinClosed (h : σ.Holds) (ho : σ.objects[i]? = some o)
    (hobjects : σ'.objects = σ.objects.set i o') (hnext : σ'.next = σ.next)
    (hopen : o'.opening = o.opening) (hends : o'.ends = (o.ends.1.close, o.ends.2))
    (htable : σ'.table = release σ.table o.writeToChild) : σ'.Holds := by
  obtain ⟨hw, hr⟩ := Prod.mk.inj hends
  refine h.released ho hobjects hnext hopen (fun fd => ⟨fun hfd => ?_, fun hfd => ?_⟩)
    fun fd e => ?_
  · exact absurd (hw ▸ hfd) (closed_ne _ _)
  · exact (congrArg Descriptor.fd hr).symm.trans hfd
  · rw [htable, release_eq_some]
    refine and_congr_right fun he => ⟨fun hne hown => ?_, fun himp hfd => ?_⟩
    · obtain ⟨k, hk, ⟨hfd, -⟩ | hread⟩ := hown
      · exact absurd hfd hne
      · exact ⟨k, hopen ▸ hk, .inr (hr ▸ hread)⟩
    · obtain ⟨k, hk, hin⟩ := h.write i o fd ho hfd
      obtain rfl := Option.some.inj (he.symm.trans hin)
      obtain ⟨k', -, ⟨hfd', -⟩ | ⟨-, he'⟩⟩ := himp ⟨k, hk, .inl ⟨hfd, rfl⟩⟩
      · exact closed_ne _ _ (hw ▸ hfd')
      · simp at he'

theorem Holds.same (h : σ.Holds) (ho : σ.objects[i]? = some o)
    (hobjects : σ'.objects = σ.objects.set i o') (hnext : σ'.next = σ.next)
    (hopen : o'.opening = o.opening) (hends : o'.ends = o.ends) (htable : σ'.table = σ.table) :
    σ'.Holds := by
  obtain ⟨hw, hr⟩ := Prod.mk.inj hends
  refine h.released ho hobjects hnext hopen (fun fd => ⟨fun hfd => hw ▸ hfd, fun hfd => hr ▸ hfd⟩)
    fun fd e => ?_
  rw [htable]
  refine (and_iff_left fun hown => ?_).symm
  unfold Object.Owns at hown ⊢
  rwa [hopen, hw, hr]

theorem Sound.doOpen (h : σ.Sound) {w : WaitResult} {r : Opening} {events : List Event}
    (hevents : events = r.events w ∨ events = .open :: r.events w)
    (hd : σ.doOpen i events r = some σ') : σ'.Sound := by
  obtain ⟨o, ho, hd⟩ := Option.bind_eq_some_iff.mp hd
  obtain ⟨o', hgo, hd⟩ := Option.bind_eq_some_iff.mp hd
  obtain ⟨hopen, hends⟩ := Object.goes_ends hgo
  have hends : o'.ends = (r.events w).foldl (fun d e => e.ends d) o.ends := by
    rcases hevents with rfl | rfl
    · exact hends
    · exact hends
  -- the new end to write to
  have hlow {f : Ends} {p : Object} (hf : f.Given σ.table σ.next)
      (hp : p.ends = (⟨f.inW⟩, ⟨f.outR⟩)) (fd : ℕ) (hfd : p.writeToChild.fd = fd) : 2 < fd := by
    rw [(Prod.mk.inj hp).1] at hfd
    have hthree := hf.three
    dsimp only at hfd
    omega
  cases r with
  | running =>
    obtain rfl := Option.some.inj hd
    exact ⟨h.same ho rfl rfl hopen hends rfl, h.kids⟩
  | noPipe =>
    obtain rfl := Option.some.inj hd
    exact ⟨h.same ho rfl rfl hopen hends rfl, h.kids⟩
  | noFork f =>
    obtain ⟨hf, hd⟩ := Option.ite_none_right_eq_some.mp hd
    obtain rfl := Option.some.inj hd
    have hnew : ({ o' with opening := some σ.next } : Object).ends = (⟨f.inW⟩, ⟨f.outR⟩) :=
      hends
    exact ⟨h.piped ho rfl rfl rfl (hlow hf hnew) (h.opened_eq_some ho hf rfl hnew), h.kids⟩
  | forked f pid =>
    obtain ⟨hf, hd⟩ := Option.ite_none_right_eq_some.mp hd
    obtain rfl := Option.some.inj hd
    have hnew : ({ o' with opening := some σ.next } : Object).ends = (⟨f.inW⟩, ⟨f.outR⟩) :=
      hends
    refine ⟨h.piped ho rfl rfl rfl (hlow hf hnew) (h.opened_eq_some ho hf rfl hnew),
      fun c hc => ?_⟩
    · rcases List.mem_append.mp hc with hc | hc
      · exact h.kids c hc
      · rw [List.mem_singleton.mp hc]
        exact h.fork ho hf

theorem Sound.disposed (h : σ.Sound) (i : ℕ) : (σ.disposed i).Sound := by
  unfold Pipes.disposed
  split
  · next o ho =>
    split_ifs
    · exact ⟨h.closed ho rfl rfl rfl rfl rfl, h.kids⟩
    · exact h
  · exact h

/-- The calls of an object that only close. -/
theorem Sound.ends (h : σ.Sound) {events : List Event} {t : Object → Table File}
    (hd : (σ.objects[i]?).bind (fun o => (o.goes events).map fun o' =>
      { σ with table := t o, objects := σ.objects.set i o' }) = some σ')
    (hgo : ∀ o o' (s : Pipes), σ.objects[i]? = some o → s.table = t o →
      s.objects = σ.objects.set i o' → s.next = σ.next → o'.opening = o.opening →
      o'.ends = events.foldl (fun d e => e.ends d) o.ends → s.Holds) : σ'.Sound := by
  obtain ⟨o, ho, hd⟩ := Option.bind_eq_some_iff.mp hd
  obtain ⟨o', hgoes, rfl⟩ := Option.map_eq_some_iff.mp hd
  obtain ⟨hopen, hends⟩ := Object.goes_ends hgoes
  exact ⟨hgo o o' _ ho rfl rfl rfl hopen hends, h.kids⟩

theorem Sound.step (h : σ.Sound) {a : Move} (hstep : σ.step a = some σ') : σ'.Sound := by
  have hend : ∀ (w : Option WaitResult) (d : Descriptor × Descriptor),
      (endEvents w).foldl (fun d e => e.ends d) d = d := by
    intro w d
    cases w <;> rfl
  have hkid : ∀ (j : ℕ) (g : Kid → Kid), (∀ c : Kid, c.Sound → (g c).Sound) →
      ({ σ with kids := σ.kids.modify j g } : Pipes).Sound := by
    intro j g hg
    refine ⟨h.toHolds.other rfl rfl fun _ _ _ => Iff.rfl, fun c hc => ?_⟩
    obtain ⟨n, hn⟩ := List.mem_iff_getElem?.mp hc
    rw [List.getElem?_modify] at hn
    obtain ⟨d, hd, rfl⟩ := Option.map_eq_some_iff.mp hn
    have hsound := h.kids d (List.mem_of_getElem? hd)
    split_ifs
    · exact hg d hsound
    · exact hsound
  cases a with
  | construct w r =>
    obtain ⟨s, hd, rfl⟩ := Option.map_eq_some_iff.mp hstep
    have hblank : ({ σ with objects := σ.objects ++ [⟨{}, none⟩] } : Pipes).Sound :=
      ⟨h.blank, h.kids⟩
    exact (hblank.doOpen (.inl rfl) hd).disposed _
  | «open» i w r => exact h.doOpen (.inr rfl) hstep
  | closeStdin i =>
    exact h.ends hstep fun o o' s ho ht hobj hnext hopen hends =>
      h.stdinClosed ho hobj hnext hopen hends ht
  | close i w =>
    refine h.ends hstep fun o o' s ho ht hobj hnext hopen hends => ?_
    rw [List.foldl_cons, hend] at hends
    exact h.closed ho hobj hnext hopen hends ht
  | destroy i w =>
    refine h.ends hstep fun o o' s ho ht hobj hnext hopen hends => ?_
    rw [List.foldl_cons, hend] at hends
    exact h.closed ho hobj hnext hopen hends ht
  | opens fd cloexec =>
    obtain ⟨hlow, hs⟩ := Option.ite_none_right_eq_some.mp hstep
    obtain rfl := Option.some.inj hs
    refine ⟨h.other rfl rfl fun n e he => ?_, h.kids⟩
    change (σ.table.put fd ⟨.other, cloexec⟩) n = some e ↔ _
    rw [Table.put_eq_some]
    constructor
    · rintro (⟨-, rfl⟩ | ⟨-, hn⟩)
      · exact absurd rfl he
      · exact hn
    · intro hn
      refine .inr ⟨?_, hn⟩
      rintro rfl
      rw [hlow.1] at hn
      cases hn
  | closes fd =>
    obtain ⟨hother, hs⟩ := Option.ite_none_right_eq_some.mp hstep
    obtain rfl := Option.some.inj hs
    refine ⟨h.other rfl rfl fun n e he => ?_, h.kids⟩
    change (σ.table.close fd) n = some e ↔ _
    rw [Table.close_eq_some]
    refine and_iff_right_of_imp fun hn => ?_
    rintro rfl
    rw [hn] at hother
    exact he (Option.some.inj hother)
  | call j => exact Option.some.inj hstep ▸ hkid j Kid.next fun c hc => hc.next
  | exit j => exact Option.some.inj hstep ▸ hkid j Kid.exit fun c hc => hc.exit
  | acts j t => exact Option.some.inj hstep ▸ hkid j (Kid.acts t) fun c hc => hc.acts t
  | others ts =>
    obtain rfl := Option.some.inj hstep
    exact ⟨h.toHolds.other rfl rfl fun _ _ _ => Iff.rfl, h.kids⟩

theorem sound_start (fds : ℕ → Option Bool) : (start fds).Sound := by
  refine ⟨⟨by simp [start], by simp [start], fun fd e he => .inl ?_, by simp [start],
    by simp [start], by simp [start]⟩, by simp [start]⟩
  obtain ⟨c, -, rfl⟩ := Option.map_eq_some_iff.mp he
  rfl

theorem Sound.reached {fds : ℕ → Option Bool} {moves : List Move}
    (hrun : run Pipes.step (start fds) moves = some σ) : σ.Sound :=
  run_preserves (fun _ _ _ h hstep => h.step hstep) (sound_start fds) hrun

end Pipes

end Sphere.Proc
