import UserPageCache.Stack

namespace UserPageCache

open PageCache (Call Frame Key Ledger Store Submission)
open SsdCache (Mapping Move Pio Race Work)

namespace SsdCache.Race

variable {s s' : Race} {pio : Pio} {key : Work}

-- What is promised once the WRITEs that missed have reached their files.
def promised (s : Race) : Contents := s.missed.foldl Contents.after s.spec

theorem promised_nil (hm : s.missed = []) : s.promised = s.spec := by
  unfold promised
  rw [hm]
  rfl

theorem after_read (spec : Contents) (hop : pio.operation = .read) : spec.after pio = spec :=
  if_neg (by simp [hop])

theorem submit_promised (hm : s.missed = []) (h : s.submit pio = .ok s') :
    s'.promised = s.promised.after pio ∧ s'.missed.length ≤ 1 := by
  unfold submit at h
  obtain ⟨⟨m, found⟩, -, h⟩ := bind_eq_ok.mp h
  cases found with
  | some cblock =>
      obtain ⟨⟨cache, w, pages, rc⟩, -, h⟩ := bind_eq_ok.mp h
      obtain rfl := Except.ok.inj h
      simp [promised, setMap, hm]
  | none =>
      by_cases hread : pio.operation = .read
      · obtain ⟨⟨w, pages, rc⟩, -, h⟩ := bind_eq_ok.mp (if_pos hread |>.symm.trans h)
        obtain rfl := Except.ok.inj h
        simp [promised, setMap, hm, after_read s.spec hread]
      · obtain rfl := Except.ok.inj (if_neg hread |>.symm.trans h)
        simp [promised, setMap, hm]

theorem startPromotion_same (h : s.startPromotion key = .ok s') :
    s'.missed = s.missed ∧ s'.spec = s.spec := by
  obtain ⟨found, -, h⟩ := bind_eq_ok.mp h
  cases found <;> obtain rfl := Except.ok.inj h <;> exact ⟨rfl, rfl⟩

theorem startDemotion_same (h : s.startDemotion key = .ok s') :
    s'.missed = s.missed ∧ s'.spec = s.spec := by
  obtain ⟨found, -, h⟩ := bind_eq_ok.mp h
  cases found <;> obtain rfl := Except.ok.inj h <;> exact ⟨rfl, rfl⟩

theorem startWriteback_same (h : s.startWriteback key = .ok s') :
    s'.missed = s.missed ∧ s'.spec = s.spec := by
  obtain ⟨found, -, h⟩ := bind_eq_ok.mp h
  cases found <;> obtain rfl := Except.ok.inj h <;> exact ⟨rfl, rfl⟩

theorem completeWith_same {m : Except Fault Mapping} (h : s.completeWith key m = .ok s') :
    s'.missed = s.missed ∧ s'.spec = s.spec := by
  obtain ⟨m', -, h⟩ := bind_eq_ok.mp h
  obtain rfl := Except.ok.inj h
  exact ⟨rfl, rfl⟩

-- The worker serves no request.
theorem act_same {a : Move} (hs : a.submits = false) (ho : ∀ i, a ≠ .writeOrigin i)
    (h : act a s = .ok s') : s'.missed = s.missed ∧ s'.spec = s.spec := by
  unfold act at h
  split at h
  · simp [Move.submits] at hs
  · exact absurd rfl (ho _)
  · obtain rfl := Except.ok.inj h
    unfold peakWork
    split <;> exact ⟨rfl, rfl⟩
  · exact startPromotion_same h
  · obtain rfl := Except.ok.inj h
    unfold readFile
    split <;> exact ⟨rfl, rfl⟩
  · obtain rfl := Except.ok.inj h
    exact ⟨rfl, rfl⟩
  · exact completeWith_same h
  · exact startDemotion_same h
  · obtain rfl := Except.ok.inj h
    exact ⟨rfl, rfl⟩
  · exact completeWith_same h
  · exact startWriteback_same h
  · obtain rfl := Except.ok.inj h
    exact ⟨rfl, rfl⟩
  · obtain rfl := Except.ok.inj h
    unfold writeFile
    split <;> exact ⟨rfl, rfl⟩
  · exact completeWith_same h
  · obtain rfl := Except.ok.inj h
    exact ⟨rfl, rfl⟩
  · obtain rfl := Except.ok.inj h
    exact ⟨rfl, rfl⟩

-- A WRITE that missed stays promised when it reaches its file.
theorem act_promised {a : Move} (hs : a.submits = false) (hm : s.missed.length ≤ 1)
    (hw : ∀ pio ∈ s.missed, pio.operation = .write) (h : act a s = .ok s') :
    s'.promised = s.promised ∧ s'.missed.length ≤ s.missed.length := by
  by_cases ho : ∃ i, a = .writeOrigin i
  · obtain ⟨i, rfl⟩ := ho
    have horigin : s.writeOrigin i = .ok s' := h
    unfold writeOrigin at horigin
    cases hp : s.missed[i]? with
    | none =>
        rw [hp] at horigin
        obtain rfl := Except.ok.inj horigin
        exact ⟨rfl, Nat.le_refl _⟩
    | some pio =>
        rw [hp] at horigin
        obtain ⟨hi, hget⟩ := List.getElem?_eq_some_iff.mp hp
        obtain rfl : i = 0 := by omega
        have honly : s.missed = [pio] := by
          refine List.ext_getElem (by simp; omega) fun k hk _ => ?_
          obtain rfl : k = 0 := by omega
          exact hget
        obtain ⟨⟨w, rc⟩, -, horigin⟩ := bind_eq_ok.mp horigin
        obtain rfl := Except.ok.inj horigin
        have hwrite : pio.operation = .write := hw pio (honly ▸ List.mem_singleton.mpr rfl)
        simp [promised, honly, Contents.after, hwrite]
  · obtain ⟨hmissed, hspec⟩ := act_same hs (fun i hi => ho ⟨i, hi⟩) h
    unfold promised
    rw [hmissed, hspec]
    exact ⟨rfl, Nat.le_refl _⟩

end SsdCache.Race

section Promises

variable {spec : SsdCache.Contents} {d : Store} {e : Submission} {pio : Pio} {key : Key}
  {path : CString} {i : Nat}

theorem SsdCache.Contents.after_isSome (h : (spec path i).isSome) :
    (spec.after pio path i).isSome := by
  unfold Contents.after
  split
  · unfold Contents.store
    split
    · simp [h]
    · exact h
  · exact h

theorem SsdCache.Contents.foldl_after_isSome (pios : List Pio) (h : (spec path i).isSome) :
    (pios.foldl Contents.after spec path i).isSome := by
  induction pios generalizing spec with
  | nil => exact h
  | cons pio rest ih => exact ih (Contents.after_isSome h)

theorem store_pio (spec : SsdCache.Contents) (e : Submission) (key : Key) :
    spec.store e.pio key.1 key.2 =
      if key = (e.pathName, e.pageIndex) then some e.frame else spec key.1 key.2 := by
  obtain ⟨path, i⟩ := key
  unfold SsdCache.Contents.store Submission.pio
  by_cases hpath : path = e.pathName
  · rcases Nat.lt_trichotomy i e.pageIndex with hlt | rfl | hgt
    · simp [hpath, Nat.not_le.mpr hlt, Nat.ne_of_lt hlt]
    · simp [hpath]
    · have hnone : ([e.frame] : List SsdCache.Page)[i - e.pageIndex]? = none :=
        List.getElem?_eq_none (by simp; omega)
      simp [hpath, hgt.le, Nat.ne_of_gt hgt, hnone]
  · simp [hpath]

-- A page that a pio writes is promised from then on.
theorem PageCache.Submission.Writes.promised (h : e.Writes key) :
    (spec.after e.pio key.1 key.2).isSome := by
  obtain ⟨hop, hkey⟩ := h
  have hop' : e.pio.operation = .write := hop
  rw [SsdCache.Contents.after, if_pos hop', store_pio, if_pos hkey.symm]
  rfl

theorem promised_of_writes {pios : List Submission} (he : e ∈ pios) (h : e.Writes key) :
    ((pios.map Submission.pio).foldl SsdCache.Contents.after spec key.1 key.2).isSome := by
  obtain ⟨before, rest, rfl⟩ := List.append_of_mem he
  rw [List.map_append, List.foldl_append, List.map_cons, List.foldl_cons]
  exact SsdCache.Contents.foldl_after_isSome _ h.promised

theorem redo_correct (hd : d.Correct) (e : Submission) : (Submission.redo d e).Correct := fun n => by
  unfold Submission.redo
  rw [PageCache.submitPio_answers, hd]

-- A pio does the same to the promises and to the store.
theorem Backs.after (h : Backs spec d) (hd : d.Correct) (e : Submission) :
    Backs (spec.after e.pio) (Submission.redo d e) := by
  intro path i page hpage
  unfold SsdCache.Contents.after at hpage
  unfold Submission.redo
  cases hop : e.operation with
  | write =>
      rw [if_pos (show e.pio.operation = .write from hop), store_pio spec e (path, i)] at hpage
      rw [PageCache.submitPio_write hd (e.pathName, e.pageIndex) (path, i)]
      by_cases hkey : (path, i) = (e.pathName, e.pageIndex)
      · rw [if_pos hkey] at hpage ⊢
        exact Option.some.inj hpage
      · rw [if_neg hkey] at hpage ⊢
        exact h path i page hpage
  | read =>
      rw [if_neg (show ¬ e.pio.operation = .write by simp [Submission.pio, hop])] at hpage
      rw [PageCache.submitPio_read_pages]
      exact h path i page hpage
  | discard =>
      rw [if_neg (show ¬ e.pio.operation = .write by simp [Submission.pio, hop])] at hpage
      exact h path i page hpage

end Promises

end UserPageCache
