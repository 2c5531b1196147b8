import UserPageCache.SsdCache.Traffic.Theorems

namespace UserPageCache.SsdCache

-- No demotion frees a block that a request is still using.
def Pinned (c : Call) (s : Traffic) : Prop :=
  match c with
  | .worker (.completeDemotion true) => ∀ r ∈ s.clients, s.core.worker.leaving ≠ some r.cblock
  | _ => True

instance (c : Call) (s : Traffic) : Decidable (Pinned c s) := by
  unfold Pinned
  split <;> infer_instance

-- The block that each request was given can still be found under the request's key.
def Bound (s : Traffic) (t : Table Work) : Prop :=
  ∀ r ∈ s.clients, r.cblock ∈ t.hashed ∧ (t.slot r.cblock).key = r.pio.key

variable {g : Geometry} {s s' : Traffic} {t t' : Table Work} {b blockSize cblockNum : Nat}
  {a : Action} {r : Client}

section Invariant

theorem Traffic.Held.block_kept (h : s.Held g t)
    (hs : Step g.cacheBlockNum a (s.core.view t) (s'.core.view t'))
    (ha : ∀ fullPathName pageIndex, a ≠ .removeMapping fullPathName pageIndex)
    (hp : a = .completeDemotion true → s.core.worker.leaving ≠ some b) (hb : b ∈ t.hashed) :
    b ∈ t'.hashed ∧ (t'.slot b).key = (t.slot b).key := by
  refine ⟨?_, hs.key_kept h.sound.inv (h.sound.valid.alloc_of_hashed hb)⟩
  rcases hs.hashed_kept hb ha with hb' | ⟨rfl, hl⟩
  · exact hb'
  · exact absurd hl (hp rfl)

theorem Traffic.Held.bound_step {c : Call} (h : s.Held g t) (hb : Bound s t) (hp : Pinned c s)
    (hs : CoreStep g s t s' t' c) : Bound s' t' := by
  cases hs with
  | @lookup pio a _ hc hk hs heq =>
      have ha : a ≠ .completeDemotion true ∧
          ∀ fullPathName pageIndex, a ≠ .removeMapping fullPathName pageIndex := by
        rcases hc with ⟨-, rfl⟩ | ⟨-, rfl⟩
        · refine ⟨?_, lookupAction_ne_remove pio⟩
          unfold lookupAction
          split <;> simp
        · simp
      have hold : ∀ r ∈ s.clients, r.cblock ∈ t'.hashed ∧ (t'.slot r.cblock).key = r.pio.key := by
        intro r hr
        obtain ⟨hr', hkey⟩ := hb r hr
        exact (h.block_kept hs ha.2 (absurd · ha.1) hr').imp_right (·.trans hkey)
      intro r hr
      rw [heq] at hr
      rcases List.mem_append.mp hr with hr | hr
      · exact hold r hr
      · rcases hs.returned_cases with hsame | ⟨c, key, hreq, hret, hc', hkey⟩
        · simp [answer_same hsame] at hr
        · simp only [answer_cons hret, Option.toList_some, List.map_cons, List.map_nil,
            List.mem_singleton] at hr
          subst hr
          exact ⟨hc', hkey.trans (Option.some.inj (hreq.symm.trans hk))⟩
  | @transfer i success r hr hw ht heq =>
      subst ht heq
      intro q hq
      unfold Traffic.transfer at hq
      simp only [hr] at hq
      split at hq
      · rcases List.mem_or_eq_of_mem_set hq with hq | rfl
        · exact hb q hq
        · exact hb r (List.mem_of_getElem? hr)
      · exact hb q (List.mem_of_mem_eraseIdx hq)
  | @setDirty i r hr hw hs heq =>
      intro q hq
      rw [heq] at hq
      simp only [Traffic.setDirty, hr] at hq
      obtain ⟨hq', hkey⟩ := hb q (List.mem_of_mem_eraseIdx hq)
      exact (h.block_kept hs (by simp) (by simp) hq').imp_right (·.trans hkey)
  | @worker a ha hl hs heq =>
      obtain ⟨-, -, hclients, -⟩ := Traffic.work_core heq
      intro q hq
      rw [hclients] at hq
      obtain ⟨hq', hkey⟩ := hb q hq
      refine (h.block_kept hs (Action.ofWorker_ne_remove ha) ?_ hq').imp_right (·.trans hkey)
      rintro rfl
      exact hp q hq
  | fillBlock hw ht heq =>
      subst ht heq
      exact hb
  | readBlock hw ht heq =>
      subst ht heq
      exact hb

theorem bound_of_reachable (h : (traffic blockSize cblockNum).Reachable Pinned s) :
    ∃ g t, s.Held g t ∧ Bound s t ∧ g.cacheBlockNum = cblockNum := by
  refine h.invariant (I := fun s => ∃ g t, s.Held g t ∧ Bound s t ∧ g.cacheBlockNum = cblockNum)
    (fun s hs => ?_) (fun s s' c hi he hp hact => ?_)
  · obtain ⟨hheld, hg⟩ := Traffic.Held.start hs
    exact ⟨_, _, hheld, by simp [Bound, hs.2.2.1], hg⟩
  · obtain ⟨g, t, hheld, hb, hg⟩ := hi
    obtain ⟨t', hheld', hs'⟩ := hheld.step he hact
    exact ⟨g, t', hheld', hheld.bound_step hb hp hs', hg⟩

end Invariant

section Binding

-- The block is in use under the request's key, a READ gets its pages and a WRITE changes
-- no other block.
structure Bound.Served (n : Nat) (s : Traffic) (r : Client) : Prop where
  inRange : r.cblock < n
  allocated : entryGetAlloc (s.core.map.es r.cblock) = true
  key : keyOf (s.core.map.es r.cblock) = r.pio.key
  found : s.core.map.found r.pio.key = some r.cblock
  others : ∀ key, key ≠ r.pio.key → s.core.map.found key ≠ some r.cblock
  reads : ∀ (cache : Cache) (w : World), cache.map = s.core.map →
    Layout (geometryOf s.core.map) w.sectorSize cache.devBlockPerPageShift → r.pio.Fits w →
    readCache cache w .success r.pio r.cblock = .ok
      ((List.range r.pio.pioCnt).map fun k => ssdPage w r.cblock (r.pio.pageIndex % 8 + k), 0)
  writes : ∀ (cache : Cache) (w : World), cache.map = s.core.map →
    Layout (geometryOf s.core.map) w.sectorSize cache.devBlockPerPageShift → r.pio.Fits w →
    ∃ cache' w', writeCache cache w .success r.pio r.cblock = .ok (cache', w', 0) ∧
      ∀ b ≠ r.cblock, ∀ j < 8, ssdPage w' b j = ssdPage w b j

theorem Traffic.Held.served (h : s.Held g t) (hb : r.cblock ∈ t.hashed)
    (hk : (t.slot r.cblock).key = r.pio.key) : Bound.Served g.cacheBlockNum s r where
  inRange := h.sound.valid.lt_of_hashed hb
  allocated := by
    rw [h.sound.repr.getAlloc]
    exact h.sound.valid.alloc_of_hashed hb
  key := by
    rw [← hk, h.sound.repr.slot_eq]
    rfl
  found := h.sound.repr.found_of_hashed h.sound.valid hb hk
  others key hne hf := hne ((h.sound.repr.found_hashed hf).2.symm.trans hk)
  reads cache w hm hl hf := by
    have hlt := Nat.lt_of_lt_of_le (h.sound.valid.lt_of_hashed hb) h.sound.repr.capacity
    exact readCache_success hf hl (congrArg Mapping.blockPerCblockShift hm) hlt
  writes cache w hm hl hf := by
    have hlt := Nat.lt_of_lt_of_le (h.sound.valid.lt_of_hashed hb) h.sound.repr.capacity
    obtain ⟨w', heq, hpages, -⟩ :=
      writeCache_success cache hf.checked hf.chained hl (congrArg Mapping.blockPerCblockShift hm)
        hlt
    refine ⟨_, w', heq, fun b hne j hj => ?_⟩
    rw [hpages b j hj, if_neg fun hand => hne hand.1]

-- The end of a demotion frees the block, whoever is using it.
theorem CoreStep.demotion_frees {c : Call} (hs : CoreStep g s t s' t' c)
    (hc : c = .worker (.completeDemotion true)) (hl : s.core.worker.leaving = some b) :
    s'.clients = s.clients ∧ (t'.slot b).alloc = false ∧ b ∉ t'.hashed := by
  subst hc
  cases hs with
  | lookup hc hk hs heq => simp at hc
  | worker ha hloaded hs heq =>
      refine ⟨(Traffic.work_core heq).2.2.1, ?_⟩
      generalize hv : s.core.view t = v at hs
      generalize hv' : s'.core.view t' = v' at hs
      cases hs with
      | hit hh ha he hk => simp at ha
      | miss hh ha hk => simp at ha
      | @demoted _ key c _ hh hw =>
          have hbc : b = c := by
            have hl' : v.worker.leaving = some b := by rw [← hv]; exact hl
            rw [hw] at hl'
            exact (Option.some.inj hl').symm
          have ht' : t' = v.table.demotionComplete c true := congrArg View.table hv'
          subst hbc
          simp [ht', Table.demotionComplete]

-- In every run in which no demotion frees a block in use, every request keeps its block.
-- The end of a demotion under a request in use frees the block.
theorem hit_stays_bound (h : (traffic blockSize cblockNum).Reachable Pinned s) :
    (∀ r ∈ s.clients, Bound.Served cblockNum s r) ∧
    ∀ s', s.enabled (.worker (.completeDemotion true)) = true →
      Traffic.act (.worker (.completeDemotion true)) s = .ok s' → ∀ r ∈ s.clients,
      s.core.worker.leaving = some r.cblock → r ∈ s'.clients ∧
        entryGetAlloc (s'.core.map.es r.cblock) = false ∧
        s'.core.map.found r.pio.key ≠ some r.cblock := by
  obtain ⟨g, t, hheld, hb, rfl⟩ := bound_of_reachable h
  refine ⟨fun r hr => hheld.served (hb r hr).1 (hb r hr).2, fun s' he hact r hr hl => ?_⟩
  obtain ⟨t', hheld', hs'⟩ := hheld.step he hact
  obtain ⟨hclients, halloc, hout⟩ := hs'.demotion_frees rfl hl
  refine ⟨hclients ▸ hr, by rw [hheld'.sound.repr.getAlloc]; exact halloc, fun hf => ?_⟩
  exact hout (hheld'.sound.repr.found_hashed hf).1

def Traffic.boot : Traffic := ⟨State.boot 512 1, none, [], 0, fun _ => [], none, [], []⟩

theorem trafficBoot_start : (traffic 512 1).start Traffic.boot :=
  ⟨boot_start (by decide) (by decide) (by decide), rfl, rfl, rfl, rfl, rfl⟩

def pageRead (pageIndex : Nat) : Pio := pageRequest pageIndex .read [fun _ => 0]

-- A page is read and its block is promoted.
def fillRun : List Call :=
  [.lookup (pageRead 0), .nested, .worker .peakWork, .worker .startPromotion, .fillBlock,
    .worker (.completePromotion true), .worker .removeWork]

def hitRun : List Call := fillRun ++ [.lookup (pageRead 0)]

-- While the READ that hit is about to be served, its block is demoted and another promoted.
def reuseRun : List Call :=
  hitRun ++ [.lookup (pageRead 8), .nested, .worker .peakWork, .worker .startPromotion,
    .worker .startDemotion, .worker (.completeDemotion true), .worker .removeWork,
    .lookup (pageRead 8), .nested, .worker .peakWork, .worker .startPromotion, .fillBlock,
    .worker (.completePromotion true)]

theorem hit_stays_bound_hitRun : ∃ s, ∃ r ∈ s.clients, Bound.Served 1 s r := by
  obtain ⟨s, hs, hp⟩ := (System.Reachable.start (S := (traffic 512 1).restrict Pinned)
    trafficBoot_start).exists_run (fun _ _ _ => trivial)
      (show _ = true from (by decide +kernel : (((traffic 512 1).restrict Pinned).run Traffic.boot
        hitRun).any (fun s => s.clients.any fun r => r.cblock == 0) = true))
  obtain ⟨r, hr, -⟩ := List.any_eq_true.mp hp
  exact ⟨s, r, hr, (hit_stays_bound hs.of_restrict).1 r hr⟩

theorem hit_block_reused : ∃ (s : Traffic) (r : Client),
    (traffic 512 1).Reachable System.Always s ∧ r ∈ s.clients ∧ r.written = false ∧
    r.pio.key = (pageRead 0).key ∧ s.core.map.found (pageRead 8).key = some r.cblock := by
  obtain ⟨s, hs, hp⟩ := (System.Reachable.start trafficBoot_start).exists_run
    (fun _ _ _ => trivial)
    (show _ = true from (by decide +kernel : ((traffic 512 1).run Traffic.boot reuseRun).any
      (fun s => s.clients.any fun r => !r.written && r.pio.key == (pageRead 0).key &&
        s.core.map.found (pageRead 8).key == some r.cblock) = true))
  obtain ⟨r, hr, hp⟩ := List.any_eq_true.mp hp
  simp only [Bool.and_eq_true, Bool.not_eq_true', beq_iff_eq] at hp
  exact ⟨s, r, hs, hr, hp.1.1, hp.1.2, hp.2⟩

end Binding

end UserPageCache.SsdCache
