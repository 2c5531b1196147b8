import UserPageCache.SsdCache.Binding

namespace UserPageCache.SsdCache

-- set_dirty_after_write finds the block that was written, still under the request's key
-- and not on its way out, or a writeback has stored the data already. A writeback fails
-- only if the flag has been set again or nothing of the block is still to be stored.
def Careful (c : Call) (s : Traffic) : Prop :=
  match c with
  | .setDirty i => ∀ r ∈ s.clients[i]?, s.core.worker.leaving ≠ some r.cblock ∧
      (r.id ∈ s.saved ∨
        s.core.map.found r.pio.key = some r.cblock ∧ r.id ∈ s.holds r.cblock)
  | .worker (.completeWriteback false) => ∀ b ∈ s.core.worker.inFlight,
      entryGetDirty (s.core.map.es b) = true ∨
        ∀ w ∈ s.acked, w.2 = keyOf (s.core.map.es b) → w.1 ∈ s.saved
  | _ => True

instance (c : Call) (s : Traffic) : Decidable (Careful c s) := by
  unfold Careful
  split <;> infer_instance

-- A successful writeback has stored the WRITE, or its key is mapped to a block that holds it
-- and that is dirty or being written back by a writeback which has not missed it.
def Retained (s : Traffic) (w : Nat × Work) : Prop :=
  w.1 ∈ s.saved ∨ ∃ b, s.core.map.found w.2 = some b ∧ w.1 ∈ s.holds b ∧
    (entryGetDirty (s.core.map.es b) = true ∨
      ∃ work, s.core.worker = .writing work b ∧ ∀ found ∈ s.loaded, w.1 ∈ found)

def Kept (s : Traffic) (t : Table Work) (w : Nat × Work) : Prop :=
  w.1 ∈ s.saved ∨ ∃ b ∈ t.hashed, (t.slot b).key = w.2 ∧ w.1 ∈ s.holds b ∧
    ((t.slot b).dirty = true ∨
      ∃ work, s.core.worker = .writing work b ∧ ∀ found ∈ s.loaded, w.1 ∈ found)

structure Durable (s : Traffic) (t : Table Work) : Prop where
  evicting : ∀ b, s.core.worker.leaving = some b → (t.slot b).dirty = false
  acked : ∀ w ∈ s.acked, Kept s t w

variable {g : Geometry} {s s' : Traffic} {t t' : Table Work} {b blockSize cblockNum n : Nat}
  {a : Action} {r : Client} {v v' : View} {key : Work} {w : Nat × Work}

section Steps

-- A writeback ends by its completion only.
theorem Step.writing_kept (hs : Step n a v v') (hw : v.worker = .writing key b) :
    v'.worker = .writing key b ∨ ∃ success, a = .completeWriteback success := by
  cases hs with
  | peek hw' => simp [hw] at hw'
  | promote hh hw' => simp [hw] at hw'
  | full hh hw' => simp [hw] at hw'
  | promoted hh hw' => simp [hw] at hw'
  | demote hh hw' => simp [hw] at hw'
  | unevictable hh hw' => simp [hw] at hw'
  | demoted hh hw' => simp [hw] at hw'
  | write hh hw' => simp [hw] at hw'
  | giveUp hh hw' => simp [hw] at hw'
  | written => exact .inr ⟨_, rfl⟩
  | dequeue hw' => simp [hw] at hw'
  | _ => exact .inl hw

theorem Step.leaving_cases (hs : Step n a v v') (hl : v'.worker.leaving = some b) :
    v.worker.leaving = some b ∨
      ∃ rest, v.table.clean = b :: rest ∧ v'.table = v.table.demotionStart b := by
  cases hs with
  | @demote _ key c rest hh hw hc hn =>
      obtain rfl : c = b := Option.some.inj hl
      exact .inr ⟨rest, hc, rfl⟩
  | peek => simp [Worker.leaving] at hl
  | promote => simp [Worker.leaving] at hl
  | full => simp [Worker.leaving] at hl
  | promoted => simp [Worker.leaving] at hl
  | unevictable => simp [Worker.leaving] at hl
  | demoted => simp [Worker.leaving] at hl
  | write => simp [Worker.leaving] at hl
  | giveUp => simp [Worker.leaving] at hl
  | written => simp [Worker.leaving] at hl
  | dequeue => simp [Worker.leaving] at hl
  | _ => exact .inl hl

-- The block being demoted is clean unless set_dirty_after_write is called for it.
theorem Step.leaving_clean (hs : Step n a v v') (h : v.Inv n)
    (hd : ∀ c, v.worker.leaving = some c → (v.table.slot c).dirty = false)
    (ha : ∀ c dirty, a = .setDirtyAfterWrite c dirty → v.worker.leaving ≠ some c)
    (hl : v'.worker.leaving = some b) : (v'.table.slot b).dirty = false := by
  rcases hs.leaving_cases hl with hold | ⟨rest, hc, ht⟩
  · have halloc : (v.table.slot b).alloc = true := by
      refine h.valid.flying b ?_
      cases hw : v.worker <;> simp_all [Worker.leaving, Worker.inFlight]
    rcases hs.dirty_kept h halloc with heq | ⟨⟨dirty, rfl⟩, -⟩ | ⟨-, key, hw⟩
    · rw [heq]
      exact hd b hold
    · exact absurd hold (ha b dirty rfl)
    · simp [hw, Worker.leaving] at hl
  · rw [ht]
    simpa [Table.demotionStart] using (h.valid.resident_clean hc).2

theorem Step.setDirty_dirty {dirty : Bool} (hs : Step n (.setDirtyAfterWrite b dirty) v v')
    (ha : (v.table.slot b).alloc = true) : (v'.table.slot b).dirty = true := by
  cases hs with
  | hit hh ha' => simp at ha'
  | miss hh ha' => simp at ha'
  | setDirty hh hb => exact Table.markDirty_dirty ha

end Steps

section Invariant

-- What is stored, mapped and dirty, or being written back stays so, if what a writeback
-- does is accounted for.
theorem Traffic.Held.kept (h : s.Held g t)
    (hs : Step g.cacheBlockNum a (s.core.view t) (s'.core.view t'))
    (ha : ∀ fullPathName pageIndex, a ≠ .removeMapping fullPathName pageIndex)
    (hd : ∀ b, s.core.worker.leaving = some b → (t.slot b).dirty = false)
    (hsaved : ∀ i ∈ s.saved, i ∈ s'.saved)
    (hholds : ∀ b ∈ t.hashed, s.core.worker.leaving ≠ some b → s'.holds b = s.holds b)
    (hstart : a = .startWriteback → s'.loaded = none)
    (hwriting : ∀ work b, s.core.worker = .writing work b → (t.slot b).key = w.2 →
      (∀ found ∈ s.loaded, w.1 ∈ found) → w.1 ∈ s'.saved ∨ (t'.slot b).dirty = true ∨
        s'.core.worker = .writing work b ∧ ∀ found ∈ s'.loaded, w.1 ∈ found)
    (hk : Kept s t w) : Kept s' t' w := by
  rcases hk with hk | ⟨b, hb, hkey, hhold, hk⟩
  · exact .inl (hsaved _ hk)
  · have hl : s.core.worker.leaving ≠ some b := by
      intro hl
      rcases hk with hk | ⟨work, hk, -⟩
      · rw [hd b hl] at hk
        cases hk
      · simp [hk, Worker.leaving] at hl
    have halloc := h.sound.valid.alloc_of_hashed hb
    obtain ⟨hb', hkey'⟩ := h.block_kept hs ha (fun _ => hl) hb
    have hhold' : w.1 ∈ s'.holds b := by rwa [hholds b hb hl]
    rcases hk with hk | ⟨work, hk, hload⟩
    · refine .inr ⟨b, hb', hkey'.trans hkey, hhold', ?_⟩
      rcases hs.dirty_kept h.sound.inv halloc with heq | ⟨-, heq⟩ | ⟨ha', key, hw⟩
      · exact .inl (heq.trans hk)
      · exact .inl heq
      · exact .inr ⟨key, hw, by simp [hstart ha']⟩
    · rcases hwriting work b hk hkey hload with hw | hw | hw
      · exact .inl hw
      · exact .inr ⟨b, hb', hkey'.trans hkey, hhold', .inl hw⟩
      · exact .inr ⟨b, hb', hkey'.trans hkey, hhold', .inr ⟨work, hw⟩⟩

-- No step but its completion ends a writeback.
theorem Traffic.Held.kept_apart (h : s.Held g t)
    (hs : Step g.cacheBlockNum a (s.core.view t) (s'.core.view t'))
    (ha : ∀ fullPathName pageIndex, a ≠ .removeMapping fullPathName pageIndex)
    (hd : ∀ b, s.core.worker.leaving = some b → (t.slot b).dirty = false)
    (hsaved : ∀ i ∈ s.saved, i ∈ s'.saved)
    (hholds : ∀ b ∈ t.hashed, s.core.worker.leaving ≠ some b → s'.holds b = s.holds b)
    (hstart : a = .startWriteback → s'.loaded = none)
    (hloaded : a ≠ .startWriteback → s'.loaded = s.loaded)
    (hend : ∀ success, a ≠ .completeWriteback success) (hk : Kept s t w) : Kept s' t' w := by
  refine h.kept hs ha hd hsaved hholds hstart (fun work b hw _ hload => .inr (.inr ⟨?_, ?_⟩)) hk
  · rcases hs.writing_kept hw with hw' | ⟨success, hc⟩
    · exact hw'
    · exact absurd hc (hend success)
  · by_cases ha' : a = .startWriteback
    · simp [hstart ha']
    · rwa [hloaded ha']

-- A change of the record alone.
theorem Kept.record (hk : Kept s t w) (hcore : s'.core = s.core)
    (hsaved : ∀ i ∈ s.saved, i ∈ s'.saved)
    (hholds : ∀ b ∈ t.hashed, ∀ i ∈ s.holds b, i ∈ s'.holds b)
    (hloaded : ∀ b, (∃ work, s.core.worker = .writing work b) → w.1 ∈ s.holds b →
      (∀ found ∈ s.loaded, w.1 ∈ found) → ∀ found ∈ s'.loaded, w.1 ∈ found) :
    Kept s' t w := by
  rcases hk with hk | ⟨b, hb, hkey, hhold, hk⟩
  · exact .inl (hsaved _ hk)
  · refine .inr ⟨b, hb, hkey, hholds b hb _ hhold, ?_⟩
    rw [hcore]
    exact hk.imp_right fun ⟨work, hw, hload⟩ => ⟨work, hw, hloaded b ⟨work, hw⟩ hhold hload⟩

theorem Traffic.transfer_record (s : Traffic) (i : Nat) (success : Bool) :
    (s.transfer i success).saved = s.saved ∧ (s.transfer i success).loaded = s.loaded ∧
      (s.transfer i success).acked = s.acked ∧
      ∀ b, ∀ j ∈ s.holds b, j ∈ (s.transfer i success).holds b := by
  unfold Traffic.transfer
  split
  · exact ⟨rfl, rfl, rfl, fun _ _ hj => hj⟩
  · split
    · refine ⟨rfl, rfl, rfl, fun b j hj => ?_⟩
      rename_i r _ _
      by_cases hb : b = r.cblock
      · simp [hb, hb ▸ hj]
      · simpa [Function.update_of_ne hb] using hj
    · exact ⟨rfl, rfl, rfl, fun _ _ hj => hj⟩

theorem Traffic.work_record (h : s.work a = .ok s') :
    (a = .startWriteback → s'.loaded = none) ∧ (a ≠ .startWriteback → s'.loaded = s.loaded) ∧
    (∀ i ∈ s.saved, i ∈ s'.saved) ∧
    (a = .completeWriteback true → ∀ i ∈ s.loaded.getD [], i ∈ s'.saved) ∧
    ∀ b, s.core.worker.arriving ≠ some b → s.core.worker.leaving ≠ some b →
      s'.holds b = s.holds b := by
  unfold Traffic.work at h
  obtain ⟨core, -, hrec⟩ := bind_eq_ok.mp h
  clear h
  split at hrec <;> obtain rfl := Except.ok.inj hrec
  · rename_i key c hw
    refine ⟨by simp, fun _ => rfl, fun _ hi => hi, by simp, fun b hb _ => ?_⟩
    have hbc : b ≠ c := fun hbc => hb (by rw [hw, hbc]; rfl)
    simp [Traffic.clear, Function.update_of_ne hbc]
  · rename_i key c hw
    refine ⟨by simp, fun _ => rfl, fun _ hi => hi, by simp, fun b _ hb => ?_⟩
    have hbc : b ≠ c := fun hbc => hb (by rw [hw, hbc]; rfl)
    simp [Traffic.clear, Function.update_of_ne hbc]
  · exact ⟨fun _ => rfl, fun hne => absurd rfl hne, fun _ hi => hi, by simp, fun _ _ _ => rfl⟩
  · refine ⟨by simp, fun _ => rfl, fun _ hi => List.mem_append_right _ hi,
      fun _ i hi => List.mem_append_left _ hi, fun _ _ _ => rfl⟩
  · rename_i hstart hdone _ _
    exact ⟨fun ha => absurd ha (by simpa using hstart), fun _ => rfl, fun _ hi => hi,
      fun ha => absurd ha (by simpa using hdone), fun _ _ _ => rfl⟩

theorem Durable.lookup_step {pio : Pio} (h : s.Held g t) (hd : Durable s t)
    (hs : Step g.cacheBlockNum a (s.core.view t) (s'.core.view t'))
    (ha : a = lookupAction pio ∨ a = .nested) (heq : s' = s.proceed pio s'.core) :
    Durable s' t' := by
  have hplain : (∀ fullPathName pageIndex, a ≠ .removeMapping fullPathName pageIndex) ∧
      (∀ c dirty, a ≠ .setDirtyAfterWrite c dirty) ∧ a ≠ .startWriteback ∧
      ∀ success, a ≠ .completeWriteback success := by
    rcases ha with rfl | rfl
    · refine ⟨lookupAction_ne_remove pio, ?_⟩
      unfold lookupAction
      split <;> simp
    · simp
  obtain ⟨hremove, hdirty, hstart, hend⟩ := hplain
  refine ⟨fun b hl => hs.leaving_clean h.sound.inv hd.evicting
    (fun c dirty hc => absurd hc (hdirty c dirty)) hl, fun w hw => ?_⟩
  have hrec : s'.acked = s.acked ∧ s'.saved = s.saved ∧ s'.holds = s.holds ∧
      s'.loaded = s.loaded := by
    rw [heq]
    exact ⟨rfl, rfl, rfl, rfl⟩
  obtain ⟨hacked, hsaved, hholds, hloaded⟩ := hrec
  rw [hacked] at hw
  exact h.kept_apart hs hremove hd.evicting (fun _ hi => hsaved ▸ hi) (fun b _ _ => by rw [hholds])
    (absurd · hstart) (fun _ => hloaded) hend (hd.acked w hw)

theorem Durable.setDirty_step {i : Nat} (h : s.Held g t) (hd : Durable s t)
    (hp : Careful (.setDirty i) s) (hr : s.clients[i]? = some r)
    (hs : Step g.cacheBlockNum (.setDirtyAfterWrite r.cblock true) (s.core.view t)
      (s'.core.view t')) (heq : s' = s.setDirty i) : Durable s' t' := by
  obtain ⟨hleave, hfound⟩ := hp r hr
  refine ⟨fun b hl => hs.leaving_clean h.sound.inv hd.evicting (fun c dirty hc => ?_) hl,
    fun w hw => ?_⟩
  · obtain ⟨rfl, -⟩ := Action.setDirtyAfterWrite.inj hc
    exact hleave
  have hrec : s'.acked = (r.id, r.pio.key) :: s.acked ∧ s'.saved = s.saved ∧
      s'.holds = s.holds ∧ s'.loaded = s.loaded := by
    rw [heq, Traffic.setDirty, hr]
    exact ⟨rfl, rfl, rfl, rfl⟩
  obtain ⟨hacked, hsaved, hholds, hloaded⟩ := hrec
  rw [hacked] at hw
  rcases List.mem_cons.mp hw with rfl | hw
  · rcases hfound with hin | ⟨hin, hhold⟩
    · exact .inl (hsaved ▸ hin)
    · obtain ⟨hb, hkey⟩ := h.sound.repr.found_hashed hin
      obtain ⟨hb', hkey'⟩ := h.block_kept hs (by simp) (by simp) hb
      refine .inr ⟨r.cblock, hb', hkey'.trans hkey, by rwa [hholds], .inl ?_⟩
      exact hs.setDirty_dirty (h.sound.valid.alloc_of_hashed hb)
  · exact h.kept_apart hs (by simp) hd.evicting (fun _ hi => hsaved ▸ hi)
      (fun b _ _ => by rw [hholds]) (by simp) (fun _ => hloaded) (by simp) (hd.acked w hw)

theorem Durable.worker_step (h : s.Held g t) (hd : Durable s t) (hp : Careful (.worker a) s)
    (ha : a.ofWorker = true) (hl : a = .completeWriteback true → s.loaded.isSome = true)
    (hs : Step g.cacheBlockNum a (s.core.view t) (s'.core.view t')) (heq : s.work a = .ok s') :
    Durable s' t' := by
  obtain ⟨-, -, -, hacked⟩ := Traffic.work_core heq
  obtain ⟨hstart, hloaded, hsaved, hdone, hholds⟩ := Traffic.work_record heq
  have hremove := Action.ofWorker_ne_remove ha
  have hholds' : ∀ b ∈ t.hashed, s.core.worker.leaving ≠ some b → s'.holds b = s.holds b :=
    fun b hb hleave => hholds b ((h.sound.valid.hashed b).mp hb).2.2 hleave
  refine ⟨fun b hl => hs.leaving_clean h.sound.inv hd.evicting (fun c dirty hc => ?_) hl,
    fun w hw => ?_⟩
  · simp [hc, Action.ofWorker] at ha
  rw [hacked] at hw
  by_cases hend : ∃ success, a = .completeWriteback success
  · obtain ⟨success, rfl⟩ := hend
    refine h.kept hs hremove hd.evicting hsaved hholds' (by simp) (fun work b hwork hkey hload => ?_)
      (hd.acked w hw)
    cases success with
    | true =>
        obtain ⟨found, hfound⟩ := Option.isSome_iff_exists.mp (hl rfl)
        exact .inl (hdone rfl w.1 (by simpa [hfound] using hload found hfound))
    | false =>
        have hfly : s.core.worker.inFlight = some b := by rw [hwork]; rfl
        rcases hp b hfly with hdirty | hstored
        · rw [h.sound.repr.getDirty] at hdirty
          rcases hs.dirty_kept h.sound.inv (h.sound.valid.flying b hfly) with
            hsame | ⟨⟨_, hc⟩, -⟩ | ⟨hc, -⟩
          · exact .inr (.inl (hsame.trans hdirty))
          · cases hc
          · cases hc
        · refine .inl (hsaved _ (hstored w hw ?_))
          rw [← hkey, h.sound.repr.slot_eq]
          rfl
  · exact h.kept_apart hs hremove hd.evicting hsaved hholds' hstart hloaded
      (fun success hc => hend ⟨success, hc⟩) (hd.acked w hw)

theorem Durable.step {c : Call} (h : s.Held g t) (hd : Durable s t) (hp : Careful c s)
    (hs : CoreStep g s t s' t' c) : Durable s' t' := by
  cases hs with
  | lookup hc hk hs heq => exact hd.lookup_step h hs (hc.imp And.right And.right) heq
  | @transfer i success r hr hw ht heq =>
      subst ht heq
      obtain ⟨hcore, -⟩ := s.transfer_core i success
      obtain ⟨hsaved, hloaded, hacked, hholds⟩ := s.transfer_record i success
      refine ⟨by rw [hcore]; exact hd.evicting, fun w hw => ?_⟩
      rw [hacked] at hw
      exact (hd.acked w hw).record hcore (fun _ hi => hsaved ▸ hi) (fun b _ => hholds b)
        (fun _ _ _ hload => by rwa [hloaded])
  | setDirty hr hw hs heq => exact hd.setDirty_step h hp hr hs heq
  | worker ha hl hs heq => exact hd.worker_step h hp ha hl hs heq
  | @fillBlock key b hw ht heq =>
      subst ht heq
      refine ⟨hd.evicting, fun w hk => (hd.acked w hk).record rfl (fun _ hi => hi)
        (fun c hc i hi => ?_) (fun _ _ _ hload => hload)⟩
      have hbc : c ≠ b := fun hbc =>
        ((h.sound.valid.hashed c).mp hc).2.2 (by rw [hw, hbc]; rfl)
      simpa [Traffic.clear, Function.update_of_ne hbc] using hi
  | @readBlock key b hw ht heq =>
      subst ht heq
      refine ⟨hd.evicting, fun w hk => (hd.acked w hk).record rfl (fun _ hi => hi)
        (fun _ _ _ hi => hi) (fun c hc hhold _ found hf => ?_)⟩
      obtain ⟨work, hwork⟩ := hc
      rw [hw] at hwork
      obtain ⟨-, rfl⟩ := Worker.writing.inj hwork
      obtain rfl := Option.some.inj hf
      exact hhold

theorem durable_of_reachable (h : (traffic blockSize cblockNum).Reachable Careful s) :
    ∃ g t, s.Held g t ∧ Durable s t := by
  refine h.invariant (I := fun s => ∃ g t, s.Held g t ∧ Durable s t)
    (fun s hs => ?_) (fun s s' c hi he hp hact => ?_)
  · obtain ⟨hheld, -⟩ := Traffic.Held.start hs
    obtain ⟨⟨-, -, hidle, -, -⟩, -, -, -, -, hacked⟩ := hs
    exact ⟨_, _, hheld, by simp [hidle, Worker.leaving], by simp [hacked]⟩
  · obtain ⟨g, t, hheld, hd⟩ := hi
    obtain ⟨t', hheld', hs'⟩ := hheld.step he hact
    exact ⟨g, t', hheld', hd.step hheld hp hs'⟩

end Invariant

section Retention

theorem Traffic.Held.retained (h : s.Held g t) (hk : Kept s t w) : Retained s w := by
  rcases hk with hk | ⟨b, hb, hkey, hhold, hk⟩
  · exact .inl hk
  · refine .inr ⟨b, h.sound.repr.found_of_hashed h.sound.valid hb hkey, hhold, ?_⟩
    rwa [h.sound.repr.getDirty]

-- In every run whose steps are careful, every WRITE that returned 0 is kept, and the block
-- that a demotion is about to free is clean. Set the flag of a block that is being demoted,
-- and the end of the demotion frees a dirty block.
theorem acknowledged_write_kept (h : (traffic blockSize cblockNum).Reachable Careful s) :
    (∀ w ∈ s.acked, Retained s w) ∧
    (∀ b, s.core.worker.leaving = some b → entryGetDirty (s.core.map.es b) = false) ∧
    ∀ i r s', s.clients[i]? = some r → s.enabled (.setDirty i) = true →
      s.core.worker.leaving = some r.cblock → Traffic.act (.setDirty i) s = .ok s' →
      s'.core.worker.leaving = some r.cblock ∧
        entryGetDirty (s'.core.map.es r.cblock) = true := by
  obtain ⟨g, t, hheld, hd⟩ := durable_of_reachable h
  refine ⟨fun w hw => hheld.retained (hd.acked w hw), fun b hl => ?_,
    fun i r s' hr he hl hact => ?_⟩
  · rw [hheld.sound.repr.getDirty]
    exact hd.evicting b hl
  · obtain ⟨t', hheld', hs'⟩ := hheld.step he hact
    generalize hc : Call.setDirty i = c at hs'
    cases hs' with
    | lookup hc' => simp [← hc] at hc'
    | @setDirty j q hq hw hs heq =>
        obtain rfl := Call.setDirty.inj hc
        obtain rfl := Option.some.inj (hr.symm.trans hq)
        have hcore : s'.core = s.core.setDirtyAfterWrite r.cblock true := by
          simp [heq, Traffic.setDirty, hr]
        have hfly : s.core.worker.inFlight = some r.cblock := by
          cases hw' : s.core.worker <;> simp_all [Worker.leaving, Worker.inFlight]
        refine ⟨by rw [hcore]; exact hl, ?_⟩
        rw [hheld'.sound.repr.getDirty]
        exact hs.setDirty_dirty (hheld.sound.valid.flying _ hfly)
    | _ => simp at hc

-- A whole block is inserted and written.
def insertRun : List Call :=
  [.lookup (pageRequest 0 .write (List.replicate 8 fun _ => 1)), .nested, .transfer 0 true,
    .setDirty 0]

-- A page of a block is written; the flag is set while the block is being demoted.
def lostRun : List Call :=
  fillRun ++ [.lookup (pageRequest 0 .write [fun _ => 1]), .transfer 0 true,
    .lookup (pageRead 8), .nested, .worker .peakWork, .worker .startPromotion,
    .worker .startDemotion, .setDirty 0]

theorem acknowledged_write_kept_insertRun : ∃ s, ∃ w ∈ s.acked, Retained s w := by
  obtain ⟨s, hs, hp⟩ := (System.Reachable.start (S := (traffic 512 1).restrict Careful)
    trafficBoot_start).exists_run (fun _ _ _ => trivial)
      (show _ = true from (by decide +kernel : (((traffic 512 1).restrict Careful).run Traffic.boot
        insertRun).any (fun s => s.acked.any fun w => w.1 == 1) = true))
  obtain ⟨w, hw, -⟩ := List.any_eq_true.mp hp
  exact ⟨s, w, hw, (acknowledged_write_kept hs.of_restrict).1 w hw⟩

theorem acknowledged_write_lost : ∃ (s s' : Traffic) (w : Nat × Work),
    (traffic 512 1).Reachable System.Always s ∧ s.core.worker.leaving = some 0 ∧
    entryGetDirty (s.core.map.es 0) = true ∧
    (traffic 512 1).run s [.worker (.completeDemotion true)] = some s' ∧ w ∈ s'.acked ∧
    ¬Retained s' w := by
  obtain ⟨s, hs, hp⟩ := (System.Reachable.start trafficBoot_start).exists_run
    (fun _ _ _ => trivial)
    (show _ = true from (by decide +kernel : ((traffic 512 1).run Traffic.boot lostRun).any
      (fun s => s.core.worker.leaving == some 0 && entryGetDirty (s.core.map.es 0) &&
        ((traffic 512 1).run s [.worker (.completeDemotion true)]).any fun s' =>
          s'.acked.any fun w => !s'.saved.contains w.1 && s'.core.map.found w.2 == none) = true))
  simp only [Bool.and_eq_true, beq_iff_eq] at hp
  obtain ⟨⟨hl, hd⟩, hp⟩ := hp
  cases hr : (traffic 512 1).run s [.worker (.completeDemotion true)] with
  | none => simp [hr] at hp
  | some s' =>
      rw [hr, Option.any_some] at hp
      obtain ⟨w, hw, hp⟩ := List.any_eq_true.mp hp
      simp only [Bool.and_eq_true, Bool.not_eq_true', beq_iff_eq] at hp
      refine ⟨s, s', w, hs, hl, hd, hr, hw, ?_⟩
      rintro (hsaved | ⟨b, hb, -⟩)
      · rw [List.contains_iff_mem.mpr hsaved] at hp
        exact absurd hp.1 (by simp)
      · rw [hp.2] at hb
        cases hb

end Retention

end UserPageCache.SsdCache
