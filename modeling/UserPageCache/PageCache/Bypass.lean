import UserPageCache.PageCache.Remainder
import UserPageCache.PageCache.WriteOnly

namespace UserPageCache.PageCache

-- The contents once some images are written, the last one of a page staying.
def overlay (images : List Image) (c : Contents) : Contents :=
  images.foldl (fun c image => Function.update c image.1 image.2) c

-- The page images of a write, which go to the store at once if the request is larger than the
-- cache.
def Call.images : Call → State → List Image
  | .uwrite stream buffer size count, s =>
    let len := dataLen size count
    if stream.mode &&& U_OWRITE = 0 then []
    else if s.cacheSize < dataPages len then
      (List.range (writeCount len)).map fun k => (pageKey stream k, bypassFrame buffer len k)
    else imagesOf ((Call.uwrite stream buffer size count).steps s.cacheSize) s
  | .uread .., _ => []

-- The page cache, with the image that the last write of each page produced.
structure Ledger where
  state : State
  contents : Contents

-- Requests of any size.
def ledgers (cacheSize : Nat) : System Ledger Call Fault where
  start x := ∃ store, store.Correct ∧ x.state = initPageCache cacheSize store ∧
    x.contents = fun key => store.pages key.1 key.2
  enabled _ _ := True
  act c x := do return ⟨← c.act x.state, overlay (c.images x.state) x.contents⟩

instance (cacheSize : Nat) (c : Call) (x : Ledger) : Decidable ((ledgers cacheSize).enabled c x) :=
  .isTrue trivial

-- No page of a large write is cached with other bytes than it writes.
def Uncached : Call → State → Prop
  | .uwrite stream buffer size count, s =>
    stream.mode &&& U_OWRITE ≠ 0 → s.cacheSize * PAGE_SIZE < size * count →
      ∀ k < writeCount (size * count), ∀ i ∈ s.entries (pageKey stream k),
        s.physBase i = bypassFrame buffer (size * count) k
  | .uread .., _ => True

instance : DecidableEq Frame := fun frame frame' =>
  decidable_of_iff (∀ j, frame j = frame' j) funext_iff.symm

instance : (c : Call) → (s : State) → Decidable (Uncached c s)
  | .uwrite stream buffer size count, s => inferInstanceAs (Decidable (stream.mode &&& U_OWRITE ≠ 0 →
      s.cacheSize * PAGE_SIZE < size * count → ∀ k < writeCount (size * count),
        ∀ i ∈ s.entries (pageKey stream k), s.physBase i = bypassFrame buffer (size * count) k))
  | .uread .., _ => .isTrue trivial

def Agreeing (c : Call) (x : Ledger) : Prop :=
  InRange c.stream.ioOffset c.len ∧ c.Through Harmless x.state ∧ Uncached c x.state

instance (c : Call) (x : Ledger) : Decidable (Agreeing c x) := inferInstanceAs (Decidable (_ ∧ _))

section Overlay

variable {images : List Image} {c c' : Contents} {key : Key} {frame : Frame}

theorem overlay_cons (image : Image) (images : List Image) (c : Contents) :
    overlay (image :: images) c = overlay images (Function.update c image.1 image.2) := rfl

theorem overlay_append (images images' : List Image) (c : Contents) :
    overlay (images ++ images') c = overlay images' (overlay images c) := List.foldl_append

-- A key whose images all hold one frame ends with it.
theorem overlay_of_all (h : ∀ image ∈ images, image.1 = key → image.2 = frame)
    (hm : (∃ image ∈ images, image.1 = key) ∨ c key = frame) : overlay images c key = frame := by
  induction images generalizing c with
  | nil => exact hm.resolve_left (by simp)
  | cons image rest ih =>
      rw [overlay_cons]
      refine ih (fun other ho => h other (List.mem_cons_of_mem _ ho)) ?_
      by_cases hkey : image.1 = key
      · right
        rw [← hkey, Function.update_self]
        exact h image List.mem_cons_self hkey
      · rw [Function.update_of_ne (Ne.symm hkey)]
        exact hm.imp_left fun ⟨other, ho, hother⟩ =>
          ⟨other, (List.mem_cons.mp ho).resolve_left fun he => hkey (he ▸ hother), hother⟩

theorem overlay_congr (h : c key = c' key) : overlay images c key = overlay images c' key := by
  induction images generalizing c c' with
  | nil => exact h
  | cons image rest ih =>
      rw [overlay_cons, overlay_cons]
      refine ih ?_
      by_cases hkey : key = image.1
      · rw [hkey, Function.update_self, Function.update_self]
      · rw [Function.update_of_ne hkey, Function.update_of_ne hkey, h]

end Overlay

section Large

variable {cacheSize : Nat} {x : Ledger} {s s' : State} {lru free : List Nat} {stream : UFile}
  {buffer : Nat → UInt8} {size count len : Nat}

-- The images of a large write.
def largeImages (stream : UFile) (buffer : Nat → UInt8) (len n : Nat) : List Image :=
  (List.range n).map fun k => (pageKey stream k, bypassFrame buffer len k)

theorem bypassWrite_pages (stream : UFile) (buffer : Nat → UInt8) (h : s.store.Correct)
    (hlen : PAGE_SIZE < len) :
    ∃ d, bypassWrite stream.pathName buffer len s (streamIndex stream) =
      .ok ({ s with store := d }, (writeCount len - 1) * PAGE_SIZE) ∧ d.Correct ∧
      (fun key => d.pages key.1 key.2) =
        overlay (largeImages stream buffer len (writeCount len))
          fun key => s.store.pages key.1 key.2 := by
  obtain ⟨d, heq, hd, hpages⟩ := bypassWrite_rule s stream buffer
    (P := fun k d => d.Correct ∧ (fun key => d.pages key.1 key.2) =
      overlay (largeImages stream buffer len k) fun key => s.store.pages key.1 key.2)
    ⟨h, rfl⟩ hlen (fun k _ d hd => by
      refine ⟨fun n => by rw [submitPio_answers, hd.1], ?_⟩
      unfold largeImages at hd ⊢
      rw [List.range_succ, List.map_append, overlay_append, ← hd.2]
      funext key
      rw [List.map_cons, List.map_nil, overlay_cons]
      change _ = Function.update (fun key => d.pages key.1 key.2) _ _ key
      rw [Function.update_apply]
      exact submitPio_write hd.1 (pageKey stream k) key _)
  exact ⟨d, heq, hd, hpages⟩

theorem largeImages_fills (stream : UFile) (buffer : Nat → UInt8) (len : Nat) :
    Fills stream buffer len (largeImages stream buffer len (writeCount len)) := by
  refine ⟨by simp [largeImages], fun k hk => ⟨bypassFrame buffer len k, ?_, fun j hj => ?_⟩⟩
  · simp [largeImages, hk]
  · exact fillFrame_inside hj (Nat.min_le_right _ _)

theorem mem_largeImages {n : Nat} {image : Image} : image ∈ largeImages stream buffer len n ↔
    ∃ k < n, (pageKey stream k, bypassFrame buffer len k) = image := by
  simp [largeImages]

-- A large write changes the view as it should when no page of it is cached with other bytes.
theorem Coherent.large_view {d : Store} {n : Nat} (hpages : (fun key => d.pages key.1 key.2) =
      overlay (largeImages stream buffer len n) fun key => s.store.pages key.1 key.2)
    (hu : ∀ k < n, ∀ i ∈ s.entries (pageKey stream k), s.physBase i = bypassFrame buffer len k) :
    ({ s with store := d } : State).view = overlay (largeImages stream buffer len n) s.view := by
  funext key
  have hentries : ({ s with store := d } : State).entries key = s.entries key := rfl
  cases he : s.entries key with
  | nil =>
      rw [view_uncached (hentries.trans he)]
      refine (congrFun hpages key).trans (overlay_congr ?_)
      rw [view_uncached he]
  | cons pg rest =>
      rw [view_cached (hentries.trans he)]
      refine (overlay_of_all (fun image hm hkey => ?_) (.inr (view_cached he))).symm
      obtain ⟨k, hk, rfl⟩ := mem_largeImages.mp hm
      obtain rfl : pageKey stream k = key := hkey
      exact (hu k hk pg (he ▸ List.mem_cons_self)).symm

theorem dataPages_gt (hr : InRange stream.ioOffset (size * count))
    (hlong : cacheSize * PAGE_SIZE < size * count) :
    cacheSize < dataPages (dataLen size count) := by
  have hlen := hr.2.1
  rw [dataLen_eq hr]
  unfold dataPages u32 PAGE_SIZE at *
  omega

theorem size_ne_zero (hr : InRange stream.ioOffset (size * count)) : size ≠ 0 := fun h0 => by
  have hpos := hr.1
  simp [h0] at hpos

theorem pageKey_inj {k k' : Nat} (hr : InRange stream.ioOffset (size * count))
    (hk : k < writeCount (size * count)) (hk' : k' < writeCount (size * count))
    (h : pageKey stream k = pageKey stream k') : k = k' := by
  have hlen := hr.1
  have hin : k * PAGE_SIZE < size * count ∧ k' * PAGE_SIZE < size * count := by
    unfold writeCount PAGE_SIZE at *
    omega
  rw [pageKey_eq hr hin.1, pageKey_eq hr hin.2] at h
  exact Nat.add_left_cancel (congrArg Prod.snd h)

-- A request of more pages than the cache has leaves the cache alone.
theorem uwrite_large (buffer : Nat → UInt8) (hd : s.store.Correct) (hN : 0 < s.cacheSize)
    (hmode : stream.mode &&& U_OWRITE ≠ 0) (hr : InRange stream.ioOffset (size * count))
    (hlong : s.cacheSize * PAGE_SIZE < size * count) : ∃ d n,
      uwrite s buffer size count stream = .ok ({ s with store := d }, n) ∧ d.Correct ∧
      (fun key => d.pages key.1 key.2) =
        overlay (largeImages stream buffer (size * count) (writeCount (size * count)))
          fun key => s.store.pages key.1 key.2 := by
  have hpages := dataPages_gt hr hlong
  rw [dataLen_eq hr] at hpages
  obtain ⟨d, heq, hd, hp⟩ := bypassWrite_pages stream buffer hd
    (long_of_bypass hN hpages)
  rw [← dataLen_eq hr] at heq
  exact ⟨d, _, uwrite_bypass hmode (size_ne_zero hr) (dataPages_gt hr hlong) heq, hd, hp⟩

theorem uread_large (hd : s.store.Correct) (hN : 0 < s.cacheSize)
    (hr : InRange stream.ioOffset (size * count)) (hlong : s.cacheSize * PAGE_SIZE < size * count)
    (buffer : Nat → UInt8) (first : Bool) : ∃ d buffer' n,
      uread s buffer size count stream first = .ok ({ s with store := d }, buffer', n) ∧ d.Correct ∧
      d.pages = s.store.pages ∧ ∀ i < size * count, buffer' i =
        (s.store.pages stream.pathName (pageKey stream (i / PAGE_SIZE)).2).bytes i := by
  have hpages := dataPages_gt hr hlong
  rw [dataLen_eq hr] at hpages
  obtain ⟨d, buffer', heq, ⟨hd, hp⟩, hbytes⟩ := bypassRead_rule s stream buffer
    (P := fun _ d => d.Correct ∧ d.pages = s.store.pages)
    (Q := fun k frame => frame = s.store.pages stream.pathName (pageKey stream k).2) ⟨hd, rfl⟩
    (long_of_bypass hN hpages)
    (fun k _ d frame hd => by
      obtain ⟨hframe, hsame⟩ := submitPio_read hd.1 (pageKey stream k) frame
      exact ⟨hframe.trans (by rw [hd.2]; rfl),
        fun n => by rw [submitPio_answers, hd.1], hsame.trans hd.2⟩)
  rw [← dataLen_eq hr] at heq
  refine ⟨d, buffer', _, uread_bypass first (size_ne_zero hr) (dataPages_gt hr hlong) heq, hd, hp,
    fun i hi => ?_⟩
  obtain ⟨frame, rfl, hi'⟩ := hbytes i hi
  exact hi'

end Large

section Invariant

variable {cacheSize : Nat} {x : Ledger} {c : Call} {s : State} {lru free : List Nat}
  {stream : UFile} {buffer : Nat → UInt8} {size count : Nat}

-- A write through the cache puts its images over the view.
theorem Coherent.uwrite_images (h : Coherent cacheSize s lru free) (hN : 2 ≤ cacheSize)
    (hmode : stream.mode &&& U_OWRITE ≠ 0) (hsize : size ≠ 0)
    (hfit : dataPages (dataLen size count) ≤ s.cacheSize)
    (hthrough : (Call.uwrite stream buffer size count).Through Harmless s) : ∃ s' n,
      (∃ lru' free', Coherent cacheSize s' lru' free') ∧
      PageCache.uwrite s buffer size count stream = .ok (s', n) ∧
      s'.view = overlay (imagesOf ((Call.uwrite stream buffer size count).steps s.cacheSize) s)
        s.view := by
  obtain ⟨s', heq, hc, hview⟩ := uwrite_images_rule (fun made t =>
      (∃ lru free, Coherent cacheSize t lru free) ∧ t.view = overlay made s.view) hmode hsize hfit
    hthrough ⟨⟨lru, free, h⟩, rfl⟩ (fun k made t hp hharmless => by
      obtain ⟨⟨lru, free, hc⟩, hview⟩ := hp
      obtain ⟨t', pg, lru', free', hact, -, -, hc', himage, hview'⟩ := hc.uwritePage hN hharmless.1
        hharmless.2 (pageKey stream k) (min PAGE_SIZE (dataLen size count - k * PAGE_SIZE))
        fun i => buffer (k * PAGE_SIZE + i)
      refine ⟨t', hact, ⟨lru', free', hc'⟩, ?_⟩
      rw [himage, overlay_append, ← hview, hview']
      rfl)
  exact ⟨s', _, hc, heq, hview⟩

def Ledger.Refines (cacheSize : Nat) (x : Ledger) : Prop :=
  (∃ lru free, Coherent cacheSize x.state lru free) ∧ x.state.view = x.contents

theorem ledgers_act {s' : State} (h : c.act x.state = .ok s') : (ledgers cacheSize).act c x =
    .ok ⟨s', overlay (c.images x.state) x.contents⟩ := by
  simp only [ledgers, h, bind, Except.bind, pure, Except.pure]

theorem images_uwrite (hmode : stream.mode &&& U_OWRITE ≠ 0)
    (hfit : dataPages (dataLen size count) ≤ s.cacheSize) :
    (Call.uwrite stream buffer size count).images s =
      imagesOf ((Call.uwrite stream buffer size count).steps s.cacheSize) s :=
  (if_neg hmode).trans (if_neg (Nat.not_lt.mpr hfit))

theorem images_large (hmode : stream.mode &&& U_OWRITE ≠ 0)
    (hr : InRange stream.ioOffset (size * count)) (hlong : s.cacheSize * PAGE_SIZE < size * count) :
    (Call.uwrite stream buffer size count).images s =
      largeImages stream buffer (size * count) (writeCount (size * count)) := by
  refine (if_neg hmode).trans ((if_pos (dataPages_gt hr hlong)).trans ?_)
  rw [dataLen_eq hr]
  rfl

-- A call that returns has stored the pages of its buffer, if it is a write.
theorem Call.images_stores {s' : State} (h : c.act s = .ok s') : c.Stores (c.images s) := by
  cases c with
  | uread stream buffer size count first => rfl
  | uwrite stream buffer size count =>
      obtain ⟨⟨s₁, n⟩, heq, -⟩ := bind_eq_ok.mp h
      by_cases hmode : stream.mode &&& U_OWRITE = 0
      · exact (if_pos hmode).mpr (if_pos hmode)
      · refine Fills.stores ?_ hmode
        rcases Nat.lt_or_ge s.cacheSize (dataPages (dataLen size count)) with hlong | hfit
        · rw [show (Call.uwrite stream buffer size count).images s = largeImages stream buffer
            (dataLen size count) (writeCount (dataLen size count)) from
              (if_neg hmode).trans (if_pos hlong)]
          exact largeImages_fills _ _ _
        · rw [images_uwrite hmode hfit]
          exact steps_fill hmode hfit (uwrite_through hmode hfit heq)

theorem Ledger.stores {x' : Ledger} (h : (ledgers cacheSize).act c x = .ok x') :
    ∃ images, c.Stores images ∧ x'.contents = overlay images x.contents := by
  obtain ⟨s', hact, h⟩ := bind_eq_ok.mp h
  obtain rfl := Except.ok.inj h
  exact ⟨_, Call.images_stores hact, rfl⟩

theorem Coherent.store (h : Coherent cacheSize s lru free) {d : Store} (hd : d.Correct) :
    Coherent cacheSize { s with store := d } lru free := ⟨h.tracked.store d, h.size, hd⟩

theorem Ledger.Refines.step (h : x.Refines cacheSize) (hN : 2 ≤ cacheSize) (ha : Agreeing c x) :
    ∃ x', (ledgers cacheSize).act c x = .ok x' ∧ x'.Refines cacheSize := by
  obtain ⟨⟨lru, free, hc⟩, hview⟩ := h
  obtain ⟨hr, hharmless, hu⟩ := ha
  have hpos : 0 < x.state.cacheSize := by
    rw [hc.size]
    omega
  cases c with
  | uwrite stream buffer size count =>
      by_cases hmode : stream.mode &&& U_OWRITE = 0
      · have hnone : uwrite x.state buffer size count stream = .ok (x.state, 0) := if_pos hmode
        refine ⟨_, ledgers_act (act_uwrite hnone), ⟨lru, free, hc⟩, ?_⟩
        rw [show (Call.uwrite stream buffer size count).images x.state = [] from if_pos hmode]
        exact hview
      · rcases Nat.lt_or_ge (x.state.cacheSize * PAGE_SIZE) (size * count) with hlong | hle
        · obtain ⟨d, n, heq, hd, hpages⟩ := uwrite_large buffer hc.correct hpos hmode hr hlong
          refine ⟨_, ledgers_act (act_uwrite heq), ⟨lru, free, hc.store hd⟩, ?_⟩
          rw [images_large hmode hr hlong, ← hview]
          exact Coherent.large_view hpages (hu hmode hlong)
        · have hfit := dataPages_le hr hle
          obtain ⟨s', n, hc', heq, hview'⟩ :=
            hc.uwrite_images hN hmode (size_ne_zero hr) hfit hharmless
          refine ⟨_, ledgers_act (act_uwrite heq), hc', ?_⟩
          rw [images_uwrite hmode hfit, ← hview]
          exact hview'
  | uread stream buffer size count first =>
      rcases Nat.lt_or_ge (x.state.cacheSize * PAGE_SIZE) (size * count) with hlong | hle
      · obtain ⟨d, buffer', n, heq, hd, hpages, -⟩ :=
          uread_large hc.correct hpos hr hlong buffer first
        have hsame : ({ x.state with store := d } : State).view = x.state.view :=
          funext fun key => view_congr rfl (fun _ _ => rfl) hpages
        exact ⟨_, ledgers_act (act_uread heq), ⟨lru, free, hc.store hd⟩, hsame.trans hview⟩
      · obtain ⟨s', buffer', n, hc', heq, hview', -⟩ := hc.uread_view hN (hc.size ▸ hle) hr buffer
          first hharmless
        exact ⟨_, ledgers_act (act_uread heq), hc', hview'.trans hview⟩

theorem ledger_of_reachable (hN : 2 ≤ cacheSize) (h : (ledgers cacheSize).Reachable Agreeing x) :
    x.Refines cacheSize := by
  refine h.invariant (fun x hx => ?_) (fun x x' c hx _ ha hact => ?_)
  · obtain ⟨store, hd, hstate, hcontents⟩ := hx
    obtain ⟨hc, hview⟩ := Coherent.init cacheSize hd
    exact ⟨⟨_, _, hstate ▸ hc⟩, by rw [hstate, hview, hcontents]⟩
  · obtain ⟨x₁, hact', hx₁⟩ := hx.step hN ha
    exact Except.ok.inj (hact'.symm.trans hact) ▸ hx₁

end Invariant

-- No page of the range is cached with other bytes than the store has.
def Stored (s : State) (stream : UFile) (len : Nat) : Prop :=
  ∀ i < len, ∀ pg ∈ (s.entries (pageKey stream (i / PAGE_SIZE))).head?,
    (s.physBase pg).bytes i =
      (s.store.pages stream.pathName (pageKey stream (i / PAGE_SIZE)).2).bytes i

-- What a large write should leave: its pages are what is read and what can be written back.
def Settled (s : State) (stream : UFile) (buffer : Nat → UInt8) (len : Nat) : Prop :=
  ∀ k < writeCount len, s.view (pageKey stream k) = bypassFrame buffer len k ∧
    ∀ i ∈ s.entries (pageKey stream k), s.physBase i = bypassFrame buffer len k

theorem stored_iff {s : State} {stream : UFile} {len : Nat} : Stored s stream len ↔
    ∀ i < len, (s.store.pages stream.pathName (pageKey stream (i / PAGE_SIZE)).2).bytes i =
      (s.view (pageKey stream (i / PAGE_SIZE))).bytes i := by
  refine forall_congr' fun i => forall_congr' fun _ => ?_
  cases he : s.entries (pageKey stream (i / PAGE_SIZE)) with
  | nil =>
      rw [view_uncached he]
      simp [pageKey]
  | cons pg rest => simp [view_cached he, eq_comm]

-- In every run in which no large write meets other bytes of its pages in the cache, requests of
-- any size return, and a write stores the pages of its buffer; a read through the cache returns
-- what was last written, and so does a large read exactly when no page of its range is cached
-- with other bytes than the store has.
theorem bypass_agrees {cacheSize : Nat} {x : Ledger} (hN : 2 ≤ cacheSize)
    (h : (ledgers cacheSize).Reachable Agreeing x) :
    (∀ c, Agreeing c x → ∃ x', (ledgers cacheSize).act c x = .ok x' ∧
      ∃ images, c.Stores images ∧ x'.contents = overlay images x.contents) ∧
    (∀ stream buffer size count first, InRange stream.ioOffset (size * count) →
      size * count ≤ cacheSize * PAGE_SIZE →
      (Call.uread stream buffer size count first).Through Harmless x.state →
      ∃ s' buffer' n, uread x.state buffer size count stream first = .ok (s', buffer', n) ∧
        ∀ i < size * count, buffer' i = (x.contents (pageKey stream (i / PAGE_SIZE))).bytes i) ∧
    (∀ stream buffer size count, stream.mode &&& U_OWRITE ≠ 0 →
      InRange stream.ioOffset (size * count) → cacheSize * PAGE_SIZE < size * count →
      ∃ s' n, uwrite x.state buffer size count stream = .ok (s', n) ∧
        (Settled s' stream buffer (size * count) ↔
          Uncached (.uwrite stream buffer size count) x.state)) ∧
    ∀ stream buffer size count first, InRange stream.ioOffset (size * count) →
      cacheSize * PAGE_SIZE < size * count →
      ∃ s' buffer' n, uread x.state buffer size count stream first = .ok (s', buffer', n) ∧
        ((∀ i < size * count, buffer' i = (x.contents (pageKey stream (i / PAGE_SIZE))).bytes i) ↔
          Stored x.state stream (size * count)) := by
  have hx := ledger_of_reachable hN h
  obtain ⟨⟨lru, free, hc⟩, hview⟩ := hx
  have hpos : 0 < x.state.cacheSize := by
    rw [hc.size]
    omega
  refine ⟨fun c ha => ?_, fun stream buffer size count first hr hle hharmless => ?_,
    fun stream buffer size count hmode hr hlong => ?_,
    fun stream buffer size count first hr hlong => ?_⟩
  · obtain ⟨x', hact, -⟩ := Ledger.Refines.step ⟨⟨lru, free, hc⟩, hview⟩ hN ha
    exact ⟨x', hact, Ledger.stores hact⟩
  · obtain ⟨s', buffer', n, -, heq, -, hbytes, -⟩ := hc.uread_view hN hle hr buffer first hharmless
    exact ⟨s', buffer', _, heq, hview ▸ hbytes⟩
  · rw [← hc.size] at hlong
    obtain ⟨d, n, heq, hd, hpages⟩ := uwrite_large buffer hc.correct hpos hmode hr hlong
    refine ⟨_, n, heq, fun hs hmode' hlong' k hk => (hs k hk).2, fun hu k hk => ?_⟩
    have hframes := hu hmode hlong
    refine ⟨?_, hframes k hk⟩
    rw [Coherent.large_view hpages hframes]
    refine overlay_of_all (fun image hm hkey => ?_)
      (.inl ⟨_, mem_largeImages.mpr ⟨k, hk, rfl⟩, rfl⟩)
    obtain ⟨k', hk', rfl⟩ := mem_largeImages.mp hm
    exact congrArg (bypassFrame buffer (size * count)) (pageKey_inj hr hk' hk hkey)
  · rw [← hc.size] at hlong
    obtain ⟨d, buffer', n, heq, -, -, hbytes⟩ := uread_large hc.correct hpos hr hlong buffer first
    refine ⟨_, buffer', n, heq, ?_⟩
    rw [stored_iff, ← hview]
    exact forall_congr' fun i => forall_congr' fun hi => by rw [hbytes i hi]

section Runs

def Ledger.boot : Ledger := ⟨initPageCache 2 emptyStore, fun key => emptyStore.pages key.1 key.2⟩

theorem ledgerBoot_start : (ledgers 2).start Ledger.boot := ⟨emptyStore, fun _ => rfl, rfl, rfl⟩

-- Three pages of bytes of one kind.
def largeWrite (index : Nat) (byte : UInt8) : Call :=
  .uwrite (streamA (index * PAGE_SIZE)) (fun _ => byte) 1 (3 * PAGE_SIZE)

def largeRead (x : Ledger) (index : Nat) : Except Fault (State × (Nat → UInt8) × Nat) :=
  uread x.state (fun _ => 0) 1 (3 * PAGE_SIZE) (streamA (index * PAGE_SIZE)) true

theorem stored_of_uncached {s : State} {stream : UFile} {len n : Nat} (hn : len ≤ n * PAGE_SIZE)
    (h : ∀ k < n, s.entries (pageKey stream k) = []) : Stored s stream len := by
  intro i hi pg hpg
  have hk : i / PAGE_SIZE < n := by
    unfold PAGE_SIZE at *
    omega
  rw [h _ hk] at hpg
  simp at hpg

-- The page before the range is in the cache, and none of the range.
theorem bypass_agrees_apart : ∃ (x : Ledger) (s' : State) (buffer' : Nat → UInt8) (n : Nat),
    x.state.freeList.nrFree = 1 ∧ largeRead x 1 = .ok (s', buffer', n) ∧
    ∀ i < 1 * (3 * PAGE_SIZE),
      buffer' i = (x.contents (pageKey (streamA (1 * PAGE_SIZE)) (i / PAGE_SIZE))).bytes i := by
  obtain ⟨x, hx, hp⟩ := (System.Reachable.start
    (S := (ledgers 2).restrict Agreeing) ledgerBoot_start).exists_run (fun _ _ _ => trivial)
    (show _ = true from (by decide +kernel : (((ledgers 2).restrict Agreeing).run Ledger.boot
      [pageWrite 0 1, largeWrite 1 2]).any (fun x => x.state.freeList.nrFree == 1 &&
        decide (∀ k < 3, x.state.entries (pageKey (streamA (1 * PAGE_SIZE)) k) = [])) = true))
  simp only [Bool.and_eq_true, beq_iff_eq, decide_eq_true_eq] at hp
  obtain ⟨s', buffer', n, heq, hiff⟩ := (bypass_agrees (by decide) hx.of_restrict).2.2.2
    (streamA (1 * PAGE_SIZE)) (fun _ => 0) 1 (3 * PAGE_SIZE) true (by decide) (by decide)
  exact ⟨x, s', buffer', n, hp.1, heq, hiff.mpr (stored_of_uncached (by decide) hp.2)⟩

def shadowed (x : Ledger) : Bool :=
  match uread x.state (fun _ => 0) 1 PAGE_SIZE (streamA 0) true with
  | .ok (_, buffer', _) => buffer' 0 != (x.contents (fileA, 0)).bytes 0
  | .error _ => false

def stale (x : Ledger) : Bool :=
  match largeRead x 0 with
  | .ok (_, buffer', _) => buffer' 0 != (x.contents (fileA, 0)).bytes 0
  | .error _ => false

-- A cached page hides a large write of it from a later read, and a large read misses a page
-- that is only in the cache.
theorem large_requests_miss_cache :
    (∃ (x : Ledger) (s' : State) (buffer' : Nat → UInt8) (n : Nat),
      (ledgers 2).Reachable System.Always x ∧
      uread x.state (fun _ => 0) 1 PAGE_SIZE (streamA 0) true = .ok (s', buffer', n) ∧
      buffer' 0 ≠ (x.contents (fileA, 0)).bytes 0) ∧
    ∃ (x : Ledger) (s' : State) (buffer' : Nat → UInt8) (n : Nat),
      (ledgers 2).Reachable System.Always x ∧ largeRead x 0 = .ok (s', buffer', n) ∧
      buffer' 0 ≠ (x.contents (fileA, 0)).bytes 0 := by
  constructor
  · obtain ⟨x, hx, hp⟩ := (System.Reachable.start ledgerBoot_start).exists_run
      (fun _ _ _ => trivial)
      (show _ = true from (by decide +kernel :
        ((ledgers 2).run Ledger.boot [pageWrite 0 1, largeWrite 0 2]).any shadowed = true))
    unfold shadowed at hp
    cases heq : uread x.state (fun _ => 0) 1 PAGE_SIZE (streamA 0) true with
    | error fault => simp [heq] at hp
    | ok r =>
        obtain ⟨s', buffer', n⟩ := r
        rw [heq] at hp
        exact ⟨x, s', buffer', n, hx, heq, by simpa using hp⟩
  · obtain ⟨x, hx, hp⟩ := (System.Reachable.start ledgerBoot_start).exists_run
      (fun _ _ _ => trivial)
      (show _ = true from (by decide +kernel :
        ((ledgers 2).run Ledger.boot [pageWrite 0 1]).any stale = true))
    unfold stale at hp
    cases heq : largeRead x 0 with
    | error fault => simp [heq] at hp
    | ok r =>
        obtain ⟨s', buffer', n⟩ := r
        rw [heq] at hp
        exact ⟨x, s', buffer', n, hx, heq, by simpa using hp⟩

end Runs

end UserPageCache.PageCache
