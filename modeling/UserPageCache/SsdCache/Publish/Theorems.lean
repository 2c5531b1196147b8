import UserPageCache.SsdCache.Publish

namespace UserPageCache.SsdCache

variable {g : Geometry} {s s' : Race} {t : Table Work} {key : Work} {b : Nat}

def Addressable (key : Work) : Prop := key.cachePageIndex < 2 ^ 17

structure Race.Inv (g : Geometry) (s : Race) (t : Table Work) : Prop where
  coherent : Coherent g Addressable s.cache s.world s.worker s.stage t s.spec
  missed : ∀ pio ∈ s.missed, pio.Fits s.world ∧ pio.operation = .write

theorem Pio.Fits.addressable_key {pio : Pio} {w : World} (h : pio.Fits w) :
    Addressable pio.key := by
  have ha := h.addressable
  have hlt : pio.pageIndex / 2 ^ 3 < 2 ^ 17 := by omega
  exact hlt

namespace Race

-- The move returns and keeps the invariant.
def Kept (g : Geometry) (r : Except Fault Race) : Prop := ∃ s' t', r = .ok s' ∧ Inv g s' t'

theorem Inv.keep_missed {w : World} (h : Inv g s t) (hk : Keeps s.world w) :
    ∀ pio ∈ s.missed, pio.Fits w ∧ pio.operation = .write :=
  fun pio hp => (h.missed pio hp).imp_left fun hf => hf.keeps hk

section Clients

theorem Inv.submit {pio : Pio} (h : Inv g s t) (hf : pio.Fits s.world)
    (hop : pio.operation ≠ .discard) (ho : Orderly (.submit pio) s) : Kept g (s.submit pio) := by
  have hstill : pio.operation = .write → Coherent.Still s.worker t pio.key := by
    intro hwrite key b hw hk
    rw [h.coherent.repr.slot_eq] at hk
    exact ho hwrite b (by rw [hw]; rfl) hk
  obtain ⟨m, c, hlookup, hserved⟩ := h.coherent.request hf hop hf.addressable_key hstill
  unfold Race.submit
  simp only [hlookup, bind, Except.bind, pure, Except.pure]
  cases c with
  | some b =>
      obtain ⟨cache', w', pages, rc, t', heq, h', hkeeps, -⟩ := hserved
      simp only [setMap, heq]
      exact ⟨_, t', rfl, h', h.keep_missed hkeeps⟩
  | none =>
      obtain ⟨t', h', habs⟩ := hserved
      by_cases hread : pio.operation = .read
      · obtain ⟨w', pages, rc, heq, -, h₂, hkeeps⟩ := h'.read_file hf hf.addressable_key habs
        simp only [hread, ite_true, setMap, heq]
        exact ⟨_, t', rfl, h₂, h.keep_missed hkeeps⟩
      · simp only [hread, ite_false]
        refine ⟨_, t', rfl, h', fun q hq => ?_⟩
        rcases List.mem_append.mp hq with hq | hq
        · exact h.missed q hq
        · obtain rfl := List.mem_singleton.mp hq
          exact ⟨hf, by cases hq : q.operation <;> simp_all⟩

-- What a lookup finds is a hashed block of the key.
theorem Inv.found (h : Inv g s t) :
    (∀ c, s.found key = some c → c ∈ t.hashed ∧ (t.slot c).key = key) ∧
      ∀ c ∈ t.hashed, (t.slot c).key = key → s.found key = some c :=
  ⟨fun _ hc => h.coherent.repr.found_hashed hc,
    fun _ hc hk => h.coherent.repr.found_of_hashed h.coherent.valid hc hk⟩

theorem leaving_demoting {w : Worker Work} (hw : w.leaving = some b) :
    ∃ key, w = .demoting key b := by
  cases w with
  | demoting key c => exact ⟨key, by rw [Option.some.inj hw]⟩
  | _ => simp [Worker.leaving] at hw

theorem Inv.writeOrigin {i : Nat} (h : Inv g s t) (ho : Orderly (.writeOrigin i) s) :
    Kept g (s.writeOrigin i) := by
  unfold Race.writeOrigin
  cases hp : s.missed[i]? with
  | none => exact ⟨s, t, rfl, h⟩
  | some pio =>
      obtain ⟨hf, -⟩ := h.missed pio (List.mem_of_getElem? hp)
      obtain ⟨hmapped, hpromoting⟩ := ho pio hp
      obtain ⟨w', rc, heq, h', hkeeps⟩ := h.coherent.write_file hf
        (fun b hb hk => leaving_demoting (hmapped b (h.found.2 b hb hk)))
        (fun b hw => hpromoting (by rw [hw]; rfl))
      simp only [heq, bind, Except.bind, pure, Except.pure]
      exact ⟨_, t, rfl, h', fun q hq => h.keep_missed hkeeps q (List.mem_of_mem_eraseIdx hq)⟩

end Clients

section Worker

-- The worker writes the block that it demotes back instead.
def held (s : Race) : Race :=
  match s.worker with
  | .demoting key cblock => { s with worker := .writing key cblock, stage := .stored }
  | _ => s

theorem held_of_leaving (h : s.worker.leaving = none) : s.held = s := by
  unfold held
  split
  · rename_i hw
    simp [hw, Worker.leaving] at h
  · rfl

theorem held_same (s : Race) : s.held.cache = s.cache ∧ s.held.world = s.world ∧
    s.held.spec = s.spec ∧ ∀ b key, s.held.worker ≠ .demoting key b := by
  unfold held
  split
  · simp
  · rename_i hw
    exact ⟨rfl, rfl, rfl, fun b key => hw key b⟩

theorem held_demoting (h : s.worker = .demoting key b) :
    s.held = { s with worker := .writing key b, stage := .stored } := by simp [held, h]

theorem Inv.hold (h : Inv g s t) (hw : s.worker = .demoting key b)
    (hmet : s.spec.Met (t.slot b).key (ssdPage s.world b)) : Inv g s.held t := by
  have hc := h.coherent
  rw [hw] at hc
  rw [held_demoting hw]
  exact ⟨hc.hold hmet, h.missed⟩

theorem Inv.peakWork (h : Inv g s t) (hw : s.worker = .idle) : Kept g (.ok s.peakWork) := by
  have hc := h.coherent
  rw [hw] at hc
  unfold Race.peakWork
  cases hq : SsdCache.peakWork s.cache.map.wq with
  | none => exact ⟨s, t, rfl, h⟩
  | some key => exact ⟨_, t, rfl, hc.peek hq, h.missed⟩

theorem Inv.removeWork (h : Inv g s t) (hw : s.worker = .finished key) :
    Kept g (.ok s.removeWork) := by
  have hc := h.coherent
  rw [hw] at hc
  exact ⟨_, _, rfl, hc.dequeue, h.missed⟩

theorem Inv.startPromotion (h : Inv g s t) (hw : s.worker = .peeked key) :
    Kept g (s.startPromotion key) := by
  have hc := h.coherent
  rw [hw] at hc
  unfold Race.startPromotion
  rcases hc.promotion_start with ⟨heq, h'⟩ | ⟨m, b, t', heq, h'⟩
  · simp only [heq, bind, Except.bind, pure, Except.pure]
    exact ⟨_, t, rfl, h', h.missed⟩
  · simp only [heq, bind, Except.bind, pure, Except.pure]
    exact ⟨_, t', rfl, h', h.missed⟩

theorem Inv.readFile (h : Inv g s t) (hw : s.worker = .promoting key b) (hs : s.stage = .begun) :
    Kept g (.ok (s.readFile key)) := by
  have hc := h.coherent
  rw [hw, hs] at hc
  unfold Race.readFile
  rcases hc.promotion_load with ⟨w', heq, h', hkeeps⟩ | ⟨-, heq, h'⟩
  · simp only [heq]
    exact ⟨_, t, rfl, hw ▸ h', h.keep_missed hkeeps⟩
  · simp only [heq]
    exact ⟨_, t, rfl, hw ▸ h', h.missed⟩

theorem Inv.writeBlock (h : Inv g s t) (hw : s.worker = .promoting key b) (hs : s.stage = .loaded) :
    Kept g (.ok (s.writeBlock b)) := by
  have hc := h.coherent
  rw [hw, hs] at hc
  obtain ⟨w', heq, h', hkeeps⟩ := hc.promotion_store
  unfold Race.writeBlock
  simp only [heq, ite_true]
  exact ⟨_, t, rfl, hw ▸ h', h.keep_missed hkeeps⟩

theorem Inv.completePromotion (h : Inv g s t) (hw : s.worker = .promoting key b)
    (hs : s.stage = .stored ∨ s.stage = .failed) :
    Kept g (s.completeWith key (promotionComplete s.cache.map b (s.stage == .stored))) := by
  have hc := h.coherent
  rw [hw] at hc
  unfold Race.completeWith
  rcases hs with hs | hs
  · rw [hs] at hc
    obtain ⟨m, t', heq, h'⟩ := hc.promotion_complete
    simp only [hs, BEq.rfl, heq, bind, Except.bind, pure, Except.pure]
    exact ⟨_, t', rfl, h', h.missed⟩
  · obtain ⟨m, t', heq, h'⟩ := hc.promotion_abandon
    have hfalse : (Stage.failed == Stage.stored) = false := rfl
    simp only [hs, hfalse, heq, bind, Except.bind, pure, Except.pure]
    exact ⟨_, t', rfl, h', h.missed⟩

theorem Inv.startDemotion (h : Inv g s t) (hw : s.worker = .full key) :
    ∃ s' t', s.startDemotion key = .ok s' ∧ Inv g s' t' ∧ Inv g s'.held t' := by
  have hc := h.coherent
  rw [hw] at hc
  unfold Race.startDemotion
  rcases hc.demotion_start with ⟨heq, h'⟩ | ⟨m, b, t', heq, h', hmet⟩
  · simp only [heq, bind, Except.bind, pure, Except.pure]
    have hinv : Inv g { s with worker := .unevictable key } t := ⟨h', h.missed⟩
    exact ⟨_, t, rfl, hinv, by rwa [held_of_leaving rfl]⟩
  · simp only [heq, bind, Except.bind, pure, Except.pure]
    have hinv : Inv g { s.setMap m with worker := .demoting key b, stage := .begun } t' :=
      ⟨h', h.missed⟩
    exact ⟨_, t', rfl, hinv, hinv.hold rfl hmet⟩

theorem Inv.trim {deallocated : Option (Nat → UInt8)} (h : Inv g s t)
    (hw : s.worker = .demoting key b) (ho : Orderly (.trim deallocated) s) :
    Inv g (s.trim deallocated) t := by
  have hc := h.coherent
  rw [hw] at hc
  have hshown : ({ Replies.success with deallocated := deallocated } : Replies).deallocated = none ∨
      0 ∉ t.hashed ∨ b = 0 := by
    rcases ho with ho | ho | ho
    · exact .inl (Option.isNone_iff_eq_none.mp ho)
    · refine .inr (.inl fun hz => ?_)
      rw [hc.repr.getAlloc, hc.valid.alloc_of_hashed hz] at ho
      cases ho
    · rw [hw] at ho
      exact .inr (.inr (Option.some.inj ho))
  obtain ⟨h', hkeeps⟩ := hc.demotion_trim hshown
  exact ⟨hw ▸ h', h.keep_missed hkeeps⟩

theorem Inv.completeDemotion (h : Inv g s t) (hw : s.worker = .demoting key b) :
    Kept g (s.completeWith key (demotionComplete s.cache.map b true)) := by
  have hc := h.coherent
  rw [hw] at hc
  obtain ⟨m, t', heq, h'⟩ := hc.demotion_complete
  unfold Race.completeWith
  simp only [heq, bind, Except.bind, pure, Except.pure]
  exact ⟨_, t', rfl, h', h.missed⟩

theorem Inv.startWriteback (h : Inv g s t) (hw : s.worker = .unevictable key) :
    Kept g (s.startWriteback key) := by
  have hc := h.coherent
  rw [hw] at hc
  unfold Race.startWriteback
  rcases hc.writeback_start with ⟨heq, h'⟩ | ⟨m, b, t', heq, h'⟩
  · simp only [heq, bind, Except.bind, pure, Except.pure]
    exact ⟨_, t, rfl, h', h.missed⟩
  · simp only [heq, bind, Except.bind, pure, Except.pure]
    exact ⟨_, t', rfl, h', h.missed⟩

theorem Inv.readBlock (h : Inv g s t) (hw : s.worker = .writing key b) (hs : s.stage = .begun) :
    Kept g (.ok (s.readBlock b)) := by
  have hc := h.coherent
  rw [hw, hs] at hc
  obtain ⟨w', heq, h', hkeeps⟩ := hc.writeback_load
  unfold Race.readBlock
  simp only [heq, ite_true]
  exact ⟨_, t, rfl, hw ▸ h', h.keep_missed hkeeps⟩

theorem Inv.writeFile (h : Inv g s t) (hw : s.worker = .writing key b) (hs : s.stage = .loaded)
    (hf : (s.world.files (s.cache.map.es b).fullPathName).isSome) :
    Kept g (.ok (s.writeFile (s.cache.map.es b))) := by
  have hc := h.coherent
  rw [hw, hs] at hc
  obtain ⟨file, hf⟩ := Option.isSome_iff_exists.mp hf
  obtain ⟨w', heq, h', hkeeps⟩ := hc.writeback_store hf
  unfold Race.writeFile
  simp only [heq]
  exact ⟨_, t, rfl, hw ▸ h', h.keep_missed hkeeps⟩

theorem Inv.completeWriteback (h : Inv g s t) (hw : s.worker = .writing key b)
    (hs : s.stage = .stored) :
    Kept g (s.completeWith key (writebackComplete s.cache.map b (s.stage == .stored))) := by
  have hc := h.coherent
  rw [hw, hs] at hc
  obtain ⟨m, t', heq, h'⟩ := hc.writeback_complete
  unfold Race.completeWith
  simp only [hs, BEq.rfl, heq, bind, Except.bind, pure, Except.pure]
  exact ⟨_, t', rfl, h', h.missed⟩

end Worker

theorem Inv.step {a : Move} (h : Inv g s t) (he : s.enabled a = true) (ho : Orderly a s) :
    Kept g (act a s) := by
  cases a with
  | submit pio =>
      simp only [Race.enabled, Bool.and_eq_true, decide_eq_true_eq, bne_iff_ne] at he
      exact h.submit he.1 he.2 ho
  | writeOrigin i => exact h.writeOrigin ho
  | peakWork =>
      cases hw : s.worker with
      | idle => exact h.peakWork hw
      | _ => simp [Race.enabled, hw] at he
  | startPromotion =>
      cases hw : s.worker with
      | peeked key =>
          simp only [act, hw]
          exact h.startPromotion hw
      | _ => simp [Race.enabled, hw] at he
  | readFile =>
      cases hw : s.worker with
      | promoting key b =>
          have hs : s.stage = .begun := by
            cases hs : s.stage <;> first | rfl | simp [Race.enabled, hw, hs] at he
          simp only [act, hw]
          exact h.readFile hw hs
      | _ => simp [Race.enabled, hw] at he
  | writeBlock =>
      cases hw : s.worker with
      | promoting key b =>
          have hs : s.stage = .loaded := by
            cases hs : s.stage <;> first | rfl | simp [Race.enabled, hw, hs] at he
          simp only [act, hw]
          exact h.writeBlock hw hs
      | _ => simp [Race.enabled, hw] at he
  | completePromotion =>
      cases hw : s.worker with
      | promoting key b =>
          have hs : s.stage = .stored ∨ s.stage = .failed := by
            cases hs : s.stage <;> simp [Race.enabled, hw, hs] at he ⊢
          simp only [act, hw]
          exact h.completePromotion hw hs
      | _ => simp [Race.enabled, hw] at he
  | startDemotion =>
      cases hw : s.worker with
      | full key =>
          simp only [act, hw]
          obtain ⟨s', t', heq, h', -⟩ := h.startDemotion hw
          exact ⟨s', t', heq, h'⟩
      | _ => simp [Race.enabled, hw] at he
  | trim deallocated =>
      cases hw : s.worker with
      | demoting key b => exact ⟨_, t, rfl, h.trim hw ho⟩
      | _ => simp [Race.enabled, hw] at he
  | completeDemotion =>
      cases hw : s.worker with
      | demoting key b =>
          simp only [act, hw]
          exact h.completeDemotion hw
      | _ => simp [Race.enabled, hw] at he
  | startWriteback =>
      cases hw : s.worker with
      | unevictable key =>
          simp only [act, hw]
          exact h.startWriteback hw
      | _ => simp [Race.enabled, hw] at he
  | readBlock =>
      cases hw : s.worker with
      | writing key b =>
          have hs : s.stage = .begun := by
            cases hs : s.stage <;> first | rfl | simp [Race.enabled, hw, hs] at he
          simp only [act, hw]
          exact h.readBlock hw hs
      | _ => simp [Race.enabled, hw] at he
  | writeFile =>
      cases hw : s.worker with
      | writing key b =>
          have hs : s.stage = .loaded ∧
              (s.world.files (s.cache.map.es b).fullPathName).isSome := by
            cases hs : s.stage <;> simp [Race.enabled, hw, hs] at he ⊢
            exact he
          simp only [act, hw]
          exact h.writeFile hw hs.1 hs.2
      | _ => simp [Race.enabled, hw] at he
  | completeWriteback =>
      cases hw : s.worker with
      | writing key b =>
          have hs : s.stage = .stored := by
            cases hs : s.stage <;> first | rfl | simp [Race.enabled, hw, hs] at he
          simp only [act, hw]
          exact h.completeWriteback hw hs
      | _ => simp [Race.enabled, hw] at he
  | removeWork =>
      cases hw : s.worker with
      | finished key => exact h.removeWork hw
      | _ => simp [Race.enabled, hw] at he

end Race

theorem race_inv {blockSize cblockNum : Nat}
    (h : (racing blockSize cblockNum).Reachable Orderly s) : ∃ g t, Race.Inv g s t := by
  refine h.invariant (I := fun s => ∃ g t, Race.Inv g s t) (fun s hs => ?_)
    (fun s s' a hi he ha hact => ?_)
  · obtain ⟨hb, hw, hm, hspec⟩ := hs
    have hc := hb.coherent (fun _ hk => hk : ∀ key, Addressable key → key.cachePageIndex < 2 ^ 17)
    refine ⟨_, _, ⟨hc.repr, by rw [hw]; exact hc.valid, hc.layout, hc.addressable, hc.queued,
      hc.known, ?_, ?_, ?_, ?_, ?_⟩, by simp [hm]⟩
    · simp [Table.initial]
    · intro key hk _
      rw [hspec]
      exact fun _ _ _ hp => hp
    · simp [hw]
    · simp [hw]
    · simp [hw]
  · obtain ⟨g, t, hs⟩ := hi
    obtain ⟨s₁, t', heq, hs'⟩ := hs.step he ha
    obtain rfl : s₁ = s' := Except.ok.inj (heq.symm.trans hact)
    exact ⟨g, t', hs'⟩

namespace Race

-- A client does the same whatever the worker is at.
def Client (f : Race → Except Fault Race) : Prop :=
  ∀ (s : Race) (worker : Worker Work) (stage : Stage),
    f { s with worker := worker, stage := stage } =
      (f s).map fun s' => { s' with worker := worker, stage := stage }

theorem client_submit (pio : Pio) : Client fun s => s.submit pio := by
  intro s worker stage
  simp only [Race.submit]
  cases SsdCache.mapLookup s.cache pio with
  | error f => rfl
  | ok r =>
      obtain ⟨m, c⟩ := r
      cases c with
      | some c =>
          simp only [bind, Except.bind, setMap]
          cases mapToCache { s.cache with map := m } s.world .success pio c <;> rfl
      | none =>
          simp only [bind, Except.bind, setMap]
          split
          · cases readOrigin s.world .success pio <;> rfl
          · rfl

theorem client_writeOrigin (i : Nat) : Client fun s => s.writeOrigin i := by
  intro s worker stage
  simp only [Race.writeOrigin]
  cases s.missed[i]? with
  | none => rfl
  | some pio =>
      simp only [bind, Except.bind]
      cases SsdCache.writeOrigin s.world .success pio <;> rfl

theorem Client.worker {f : Race → Except Fault Race} (hf : Client f) (h : f s = .ok s') :
    s'.worker = s.worker := by
  have haside : f s = (f s).map fun s' => { s' with worker := s.worker, stage := s.stage } :=
    hf s s.worker s.stage
  rw [h] at haside
  have heq : s' = { s' with worker := s.worker, stage := s.stage } := Except.ok.inj haside
  rw [heq]

-- What a client keeps of the state in which the block is held, it keeps of the state that
-- it leaves.
theorem Client.held {f : Race → Except Fault Race} (hf : Client f)
    (hw : s.worker = .demoting key b) (h : f s = .ok s') (hk : Kept g (f s.held)) :
    ∃ g t, Inv g s'.held t := by
  obtain ⟨s₁, t, heq, hs₁⟩ := hk
  rw [held_demoting hw, hf, h] at heq
  rw [held_demoting ((hf.worker h).trans hw)]
  obtain rfl : _ = s₁ := Except.ok.inj heq
  exact ⟨g, t, hs₁⟩

theorem completeWith_worker {m : Except Fault Mapping} (h : s.completeWith key m = .ok s') :
    s'.worker = .finished key := by
  obtain ⟨m, -, h⟩ := bind_eq_ok.mp h
  rw [← Except.ok.inj h]

theorem startPromotion_leaving (h : s.startPromotion key = .ok s') : s'.worker.leaving = none := by
  obtain ⟨r, -, h⟩ := bind_eq_ok.mp h
  cases r with
  | none =>
      rw [← Except.ok.inj h]
      rfl
  | some r =>
      rw [← Except.ok.inj h]
      rfl

theorem startWriteback_leaving (h : s.startWriteback key = .ok s') : s'.worker.leaving = none := by
  obtain ⟨r, -, h⟩ := bind_eq_ok.mp h
  cases r with
  | none =>
      rw [← Except.ok.inj h]
      rfl
  | some r =>
      rw [← Except.ok.inj h]
      rfl

theorem readFile_worker (s : Race) (key : Work) : (s.readFile key).worker = s.worker := by
  unfold Race.readFile
  split <;> rfl

theorem writeFile_worker (s : Race) (e : Entry) : (s.writeFile e).worker = s.worker := by
  unfold Race.writeFile
  split <;> rfl

-- Only the start of a demotion puts a block on its way out.
theorem leaving_act {a : Move} (hl : s.worker.leaving = none) (ha : a ≠ .startDemotion)
    (hact : act a s = .ok s') : s'.worker.leaving = none := by
  unfold act at hact
  split at hact
  · rwa [(client_submit _).worker hact]
  · rwa [(client_writeOrigin _).worker hact]
  · rw [← Except.ok.inj hact]
    unfold Race.peakWork
    split
    · rfl
    · exact hl
  · exact startPromotion_leaving hact
  · rwa [← Except.ok.inj hact, readFile_worker]
  · rwa [← Except.ok.inj hact]
  · rw [completeWith_worker hact]
    rfl
  · exact absurd rfl ha
  · rwa [← Except.ok.inj hact]
  · rw [completeWith_worker hact]
    rfl
  · exact startWriteback_leaving hact
  · rwa [← Except.ok.inj hact]
  · rwa [← Except.ok.inj hact, writeFile_worker]
  · rw [completeWith_worker hact]
    rfl
  · rw [← Except.ok.inj hact]
    rfl
  · rwa [← Except.ok.inj hact]

theorem Inv.held_met {g' : Geometry} {t' : Table Work} (h : Inv g s t) (hh : Inv g' s.held t')
    (hw : s.worker = .demoting key b) : s.spec.Met (t.slot b).key (ssdPage s.world b) := by
  rw [held_demoting hw] at hh
  have hmet := hh.coherent.cached b (hh.coherent.moving_hashed rfl) (by simp)
  rw [hh.coherent.repr.slot_eq] at hmet
  rwa [h.coherent.repr.slot_eq]

-- The trim of block 0 shows in no block of the cache.
theorem Inv.trim_held {deallocated : Option (Nat → UInt8)} (h : Inv g s t)
    (hmet : s.spec.Met (t.slot b).key (ssdPage s.world b)) (hw : s.worker = .demoting key b)
    (hu : Undisturbed (.trim deallocated) s) : Inv g (s.trim deallocated).held t := by
  have hc := h.coherent
  have hb : b ∈ t.hashed := hc.moving_hashed (by rw [hw]; rfl)
  have hshown : ({ Replies.success with deallocated := deallocated } : Replies).deallocated = none ∨
      b ≠ 0 := by
    refine hu.2.imp Option.isNone_iff_eq_none.mp fun halloc hz => ?_
    rw [hc.repr.getAlloc, hc.valid.alloc_of_hashed (hz ▸ hb)] at halloc
    cases halloc
  refine (h.trim hw hu.1).hold hw fun j hj page hp => ?_
  exact (Coherent.trimCblock_pages hc.layout hc.shift hshown hj).trans (hmet j hj page hp)

theorem Inv.step_held {a : Move} {g' : Geometry} {t' : Table Work} (h : Inv g s t)
    (hh : Inv g' s.held t') (he : s.enabled a = true) (hu : Undisturbed a s)
    (hact : act a s = .ok s') : ∃ g t, Inv g s'.held t := by
  obtain ⟨s₁, t₁, heq, hs₁⟩ := h.step he hu.1
  obtain rfl : s₁ = s' := Except.ok.inj (heq.symm.trans hact)
  have hheld : s₁.worker.leaving = none → ∃ g t, Inv g s₁.held t := fun hl =>
    ⟨g, t₁, by rwa [held_of_leaving hl]⟩
  cases hw : s.worker with
  | demoting key b =>
      cases a with
      | submit pio =>
          simp only [Race.enabled, Bool.and_eq_true, decide_eq_true_eq, bne_iff_ne] at he
          have hworld : s.held.world = s.world := by rw [held_demoting hw]
          refine (client_submit pio).held hw hact (hh.submit (hworld ▸ he.1) he.2 fun _ c hc => ?_)
          simp [held_demoting hw, Worker.leaving] at hc
      | writeOrigin i =>
          refine (client_writeOrigin i).held hw hact (hh.writeOrigin fun pio hp => ?_)
          rw [held_demoting hw] at hp ⊢
          refine ⟨fun c hc => ?_, fun hf => by cases hf⟩
          have hnone : s.found pio.key = none := hu.2 pio hp
          rw [Option.mem_def] at hc
          exact absurd (hnone.symm.trans hc) (by simp)
      | trim deallocated =>
          obtain rfl : s.trim deallocated = s₁ := Except.ok.inj hact
          exact ⟨g, t, h.trim_held (h.held_met hh hw) hw hu⟩
      | completeDemotion =>
          simp only [act, hw] at hact
          exact hheld (by rw [completeWith_worker hact]; rfl)
      | _ => simp [Race.enabled, hw] at he
  | full key =>
      by_cases ha : a = .startDemotion
      · obtain ⟨s₂, t₂, heq₂, -, hs₂⟩ := h.startDemotion hw
        simp only [ha, act, hw] at hact
        obtain rfl : s₂ = s₁ := Except.ok.inj (heq₂.symm.trans hact)
        exact ⟨g, t₂, hs₂⟩
      · exact hheld (leaving_act (by rw [hw]; rfl) ha hact)
  | _ =>
      refine hheld (leaving_act (by rw [hw]; rfl) (fun ha => ?_) hact)
      simp [ha, Race.enabled, hw] at he

end Race

theorem held_inv {blockSize cblockNum : Nat}
    (h : (racing blockSize cblockNum).Reachable Undisturbed s) : ∃ g t, Race.Inv g s.held t := by
  have hboth : (∃ g t, Race.Inv g s t) ∧ ∃ g t, Race.Inv g s.held t := by
    induction h with
    | start hs =>
        obtain ⟨g, t, h⟩ := race_inv (.start hs)
        refine ⟨⟨g, t, h⟩, g, t, ?_⟩
        rwa [Race.held_of_leaving (by rw [hs.2.1]; rfl)]
    | step h he ha hact ih =>
        obtain ⟨⟨g, t, hi⟩, g', t', hh⟩ := ih
        obtain ⟨s₁, t₁, heq, hs₁⟩ := hi.step he ha.1
        obtain rfl := Except.ok.inj (heq.symm.trans hact)
        exact ⟨⟨g, t₁, hs₁⟩, hi.step_held hh he ha hact⟩
  exact hboth.2

def Race.boot : Race :=
  ⟨Session.boot.cache, Session.boot.world, .idle, .begun, [], fileContents Session.boot.world⟩

theorem raceBoot_start : (racing 512 1).start Race.boot :=
  ⟨⟨by decide, ⟨9, by decide, by decide, rfl⟩, rfl, rfl, rfl⟩, rfl, rfl, rfl⟩

def firstByte : Fin PAGE_SIZE := ⟨0, by decide⟩

def pageWrite : Pio := pageRequest 3 .write [fun _ => 1]

-- The file is written before the worker reads it.
def freshRun : List Move :=
  [.submit pageWrite, .peakWork, .startPromotion, .writeOrigin 0, .readFile, .writeBlock,
    .completePromotion, .removeWork]

-- The file is written between the worker's read and its end.
def staleRun : List Move :=
  [.submit pageWrite, .peakWork, .startPromotion, .readFile, .writeOrigin 0, .writeBlock,
    .completePromotion, .removeWork]

end UserPageCache.SsdCache
