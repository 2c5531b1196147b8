import UserPageCache.PageCache.Calls.Theorems

namespace UserPageCache.PageCache

open Linked

-- The images of the pages that some steps write, each taken when its page is at the head.
def imagesOf : List PageStep → State → List Image
  | [], _ => []
  | step :: rest, s =>
    match step.act s with
    | .ok s' => (s'.lruList.head.bind s'.imageAt).toList ++ imagesOf rest s'
    | .error _ => []

-- The page images of a write: consecutive pages that hold the buffer, byte by byte.
structure Fills (stream : UFile) (buffer : Nat → UInt8) (len : Nat) (images : List Image) :
    Prop where
  count : images.length = writeCount len
  page : ∀ k < writeCount len, ∃ frame, images[k]? = some (pageKey stream k, frame) ∧
    ∀ j : Fin PAGE_SIZE, k * PAGE_SIZE + j < len → frame j = buffer (k * PAGE_SIZE + j)

-- What a call hands over to be stored.
def Call.Stores : Call → List Image → Prop
  | .uwrite stream buffer size count, images =>
    if stream.mode &&& U_OWRITE = 0 then images = []
    else Fills stream buffer (dataLen size count) images
  | .uread .., images => images = []

-- The images of some calls, one call's after the other.
def Produced (calls : List Call) (images : List Image) : Prop :=
  ∃ parts, List.Forall₂ Call.Stores calls parts ∧ images = parts.flatten

-- A run of writes with the images they have produced so far.
structure Writing where
  state : State
  calls : List Call
  images : List Image

namespace Writing

def act (c : Call) (w : Writing) : Except Fault Writing := do
  return ⟨← c.act w.state, w.calls ++ [c],
    w.images ++ imagesOf (c.steps w.state.cacheSize) w.state⟩

-- A write of at least one byte and at most as many pages as the cache has.
def enabled : Call → Writing → Bool
  | .uwrite stream _ size count, w => stream.mode &&& U_OWRITE != 0 && 0 < size * count &&
      decide (size * count ≤ w.state.cacheSize * PAGE_SIZE)
  | .uread .., _ => false

end Writing

def writeOnly (cacheSize : Nat) : System Writing Call Fault where
  start w := (∃ store, store.log = [] ∧ w.state = initPageCache cacheSize store) ∧
    w.calls = [] ∧ w.images = []
  enabled c w := w.enabled c = true
  act := Writing.act

instance (cacheSize : Nat) (c : Call) (w : Writing) :
    Decidable ((writeOnly cacheSize).enabled c w) :=
  inferInstanceAs (Decidable (w.enabled c = true))

-- Every page is on exactly one of the two lists, both whole, and nr_free is exact.
def Partitioned (s : State) : Prop :=
  ∃ lru free, DList s.next s.prev s.lruList.head s.lruList.tail lru ∧
    Seg s.next s.freeList.head free none ∧ s.freeList.nrFree = free.length ∧
    (lru ++ free).Perm (List.range s.cacheSize)

section Images

variable {s s' : State} {stream : UFile} {buffer : Nat → UInt8} {size count len : Nat}
  {path : CString} {index copyLen : Nat} {src : Nat → UInt8}

theorem fillFrame_inside {frame : Frame} {k n : Nat} {j : Fin PAGE_SIZE}
    (hj : k * PAGE_SIZE + j < len) (hn : min PAGE_SIZE (len - k * PAGE_SIZE) ≤ n) :
    fillFrame frame n (fun i => buffer (k * PAGE_SIZE + i)) j = buffer (k * PAGE_SIZE + j) := by
  have hpage := j.isLt
  exact if_pos (by omega)

-- A page that uwrite has put into the cache.
theorem uwritePage_image (h : uwritePage path s index copyLen src = .ok s') :
    ∃ frame,
      s'.lruList.head.bind s'.imageAt = some ((path, index), fillFrame frame copyLen src) := by
  unfold uwritePage at h
  obtain ⟨⟨s₁, pg⟩, -, h⟩ := bind_eq_ok.mp h
  refine ⟨s₁.physBase pg, ?_⟩
  simp only [addToLruHead_eq, hashTableInsert, linkHead, State.setPage, State.setFrame,
    Function.update_self, ite_true, Except.ok.injEq] at h
  subst h
  simp [setBucket, State.imageAt, State.keyAt]

theorem imagesOf_fills {k n : Nat} (h : System.Along PageStep.act Returns
      ((List.range' k n).map (writeStep stream buffer len)) s) :
    (imagesOf ((List.range' k n).map (writeStep stream buffer len)) s).length = n ∧
      ∀ m < n, ∃ frame, (imagesOf ((List.range' k n).map (writeStep stream buffer len)) s)[m]? =
        some (pageKey stream (k + m), frame) ∧ ∀ j : Fin PAGE_SIZE, (k + m) * PAGE_SIZE + j < len →
          frame j = buffer ((k + m) * PAGE_SIZE + j) := by
  induction n generalizing k s with
  | zero => exact ⟨rfl, fun m hm => absurd hm (by omega)⟩
  | succ n ih =>
      rw [List.range'_succ, List.map_cons] at h ⊢
      obtain ⟨s', hact⟩ := h.1
      obtain ⟨frame, himage⟩ := uwritePage_image (show uwritePage (pageKey stream k).1 s
        (pageKey stream k).2 (min PAGE_SIZE (len - k * PAGE_SIZE))
        (fun i => buffer (k * PAGE_SIZE + i)) = .ok s' from hact)
      obtain ⟨hlen, hpages⟩ := ih (h.next hact)
      rw [imagesOf, hact]
      simp only [himage, Option.toList_some, List.singleton_append]
      refine ⟨by rw [List.length_cons, hlen], fun m hm => ?_⟩
      cases m with
      | zero => exact ⟨_, rfl, fun j hj => fillFrame_inside hj (Nat.le_refl _)⟩
      | succ m =>
          have hsucc : k + (m + 1) = k + 1 + m := by omega
          rw [List.getElem?_cons_succ, hsucc]
          exact hpages m (by omega)

theorem steps_fill (hmode : stream.mode &&& U_OWRITE ≠ 0)
    (hfit : dataPages (dataLen size count) ≤ s.cacheSize)
    (hthrough : (Call.uwrite stream buffer size count).Through Returns s) :
    Fills stream buffer (dataLen size count)
      (imagesOf ((Call.uwrite stream buffer size count).steps s.cacheSize) s) := by
  unfold Call.Through at hthrough
  rw [steps_uwrite hmode hfit, List.range_eq_range'] at hthrough ⊢
  obtain ⟨hcount, hpages⟩ := imagesOf_fills hthrough
  exact ⟨hcount, fun k hk => by simpa using hpages k hk⟩

-- A write that returns has put all its pages into the cache.
theorem uwritePages_returns {len n k fuel : Nat} {first : Bool} {r : State × Nat}
    (hk : k + (n + 1) = writeCount len) (hf : first = true → k = 0)
    (h : uwritePages stream.pathName buffer len fuel s (k * PAGE_SIZE) (pageKey stream k).2 first =
      .ok r) :
    System.Along PageStep.act Returns
      ((List.range' k (n + 1)).map (writeStep stream buffer len)) s := by
  induction n generalizing k fuel s first with
  | zero =>
      cases fuel with
      | zero => simp [uwritePages] at h
      | succ fuel =>
          unfold uwritePages at h
          rw [writeLen_eq hf] at h
          obtain ⟨s', hact, -⟩ := bind_eq_ok.mp h
          have hstep : (writeStep stream buffer len k).act s = .ok s' := hact
          rw [List.range'_one, List.map_singleton, System.Along, hstep]
          exact ⟨⟨s', hstep⟩, trivial⟩
  | succ n ih =>
      cases fuel with
      | zero => simp [uwritePages] at h
      | succ fuel =>
          unfold uwritePages at h
          rw [writeLen_eq hf] at h
          obtain ⟨s', hact, h⟩ := bind_eq_ok.mp h
          have hstep : (writeStep stream buffer len k).act s = .ok s' := hact
          obtain ⟨hmore, hoff⟩ := more_pages (by omega : k + 1 < writeCount len)
          simp only [hmore, decide_false, Bool.false_eq_true, ite_false, hoff, inc_pageKey] at h
          rw [List.range'_succ, List.map_cons, System.Along, hstep]
          exact ⟨⟨s', hstep⟩, ih (by omega) (by simp) h⟩

theorem uwrite_through {s' : State} {n : Nat} (hmode : stream.mode &&& U_OWRITE ≠ 0)
    (hfit : dataPages (dataLen size count) ≤ s.cacheSize)
    (h : uwrite s buffer size count stream = .ok (s', n)) :
    (Call.uwrite stream buffer size count).Through Returns s := by
  unfold uwrite at h
  rw [if_neg hmode] at h
  obtain ⟨r, heq, -⟩ := bind_eq_ok.mp ((if_neg (Nat.not_lt.mpr hfit)).symm.trans h)
  rw [← pageKey_zero, ← Nat.zero_mul PAGE_SIZE] at heq
  unfold Call.Through
  rw [steps_uwrite hmode hfit, List.range_eq_range']
  exact uwritePages_returns (Nat.zero_add _) (fun _ => rfl) heq

theorem Fills.stores {images : List Image} (h : Fills stream buffer (dataLen size count) images)
    (hmode : stream.mode &&& U_OWRITE ≠ 0) :
    (Call.uwrite stream buffer size count).Stores images :=
  (if_neg hmode).mpr h

theorem Produced.append {calls : List Call} {images images' : List Image} {c : Call}
    (h : Produced calls images) (hc : c.Stores images') :
    Produced (calls ++ [c]) (images ++ images') := by
  obtain ⟨parts, hparts, rfl⟩ := h
  refine ⟨parts ++ [images'], List.rel_append hparts (.cons hc .nil), ?_⟩
  rw [List.flatten_append, List.flatten_singleton]

end Images

section Invariant

variable {s : State} {images : List Image} {cacheSize : Nat}

-- What is on the list are the images that the store has not received yet.
structure Pending (cacheSize : Nat) (s : State) (images : List Image) (lru free : List Nat) :
    Prop where
  lists : Lists s [] lru free
  size : s.cacheSize = cacheSize
  back : ∀ i ∈ lru.tail, s.prev i ≠ none
  counts : ∀ key, (s.entries key).length = s.holders lru key
  order : images = s.store.writes ++ lru.reverse.filterMap s.imageAt

variable {lru free : List Nat}

theorem Pending.partitioned (h : Pending cacheSize s images lru free) : Partitioned s :=
  ⟨lru, free, h.lists.links.dlist h.back, h.lists.frees, h.lists.count, by
    simpa using h.lists.pages⟩

-- A write puts its image last and the victims' images go to the store in order.
theorem Pending.step (h : Pending cacheSize s images lru free) (hN : 2 ≤ cacheSize) (key : Key)
    (copyLen : Nat) (src : Nat → UInt8) : ∃ s' lru' free',
    (PageStep.write key copyLen src).act s = .ok s' ∧
      Pending cacheSize s' (images ++ (s'.lruList.head.bind s'.imageAt).toList) lru' free' := by
  have hsize : 2 ≤ s.cacheSize := h.size.symm ▸ hN
  have hlinked := h.lists.linked (by omega) h.back
  obtain ⟨s', pg, kept, free', heq, rfl, hf⟩ := uwritePage_spec h.lists hsize hlinked
    (fun key' => (h.counts key').ge) key copyLen src
  have hpg : pg ∉ kept := (List.nodup_cons.mp hf.lists.links.nodup).1
  have hkey : ∀ i ∈ kept, s'.keyAt i = s.keyAt i := fun i hi => (hf.others i hi).1
  refine ⟨s', pg :: kept, free', heq, hf.lists, hf.size.trans h.size, fun i hi => ?_,
    fun key' => ?_, ?_⟩
  · rw [(hf.others i hi).2.2]
    split
    · simp
    · rename_i hhead
      refine h.back i ?_
      cases kept with
      | nil => simp at hi
      | cons first rest =>
          have hne : first ≠ i := by simpa using hhead
          have hrest : i ∈ rest := (List.mem_cons.mp hi).resolve_left (Ne.symm hne)
          exact List.mem_append_left _ hrest
  · have hcount := h.counts key'
    rw [holders_append] at hcount
    rw [holders_cons hf.named, holders_congr hkey, hf.entries]
    split
    · rw [List.length_cons, List.length_drop]
      omega
    · rw [List.length_drop]
      omega
  · have himage : ∀ i ∈ kept.reverse, s'.imageAt i = s.imageAt i := fun i hi => by
      have hi := List.mem_reverse.mp hi
      have hne : i ≠ pg := fun he => hpg (he ▸ hi)
      unfold State.imageAt
      rw [hkey i hi, hf.phys, Function.update_of_ne hne]
    have hhead : s'.lruList.head = some pg := hf.lists.links.head_eq
    have hnew : s'.imageAt pg = some (key, s'.physBase pg) := by
      unfold State.imageAt
      rw [hf.named]
      rfl
    rw [h.order, hf.store, foldl_pageOut_writes, hhead, List.reverse_cons, List.filterMap_append,
      List.filterMap_congr himage]
    simp [hnew]

variable {c : Call} {w : Writing}

theorem Pending.along (hN : 2 ≤ cacheSize) (h : Pending cacheSize s images lru free)
    (acts : List PageStep) (ha : ∀ a ∈ acts, ∃ key copyLen src, a = .write key copyLen src) :
    System.Along PageStep.act (fun _ => Partitioned) acts s := by
  induction acts generalizing s images lru free with
  | nil => trivial
  | cons a rest ih =>
      obtain ⟨key, copyLen, src, rfl⟩ := ha a List.mem_cons_self
      obtain ⟨s', lru', free', hact, h'⟩ := h.step hN key copyLen src
      refine ⟨h.partitioned, ?_⟩
      rw [hact]
      exact ih h' fun a ha' => ha a (List.mem_cons_of_mem _ ha')

theorem imagesOf_range' {f : Nat → PageStep} {k n : Nat} {s s' : State} (hk : k < n)
    (hact : (f k).act s = .ok s') : imagesOf ((List.range' k (n - k)).map f) s =
      (s'.lruList.head.bind s'.imageAt).toList ++
        imagesOf ((List.range' (k + 1) (n - (k + 1))).map f) s' := by
  obtain ⟨m, hm⟩ : ∃ m, n - k = m + 1 := ⟨n - k - 1, by omega⟩
  have hm' : n - (k + 1) = m := by omega
  rw [hm, hm', List.range'_succ, List.map_cons, imagesOf, hact]

-- A uwrite keeps what each of its pages keeps and adds its image to; what is left to come
-- are the images of the later pages.
theorem uwrite_images_rule {allowed : PageStep → State → Prop} {s : State} {stream : UFile}
    {buffer : Nat → UInt8} {size count : Nat} (I : List Image → State → Prop)
    (hmode : stream.mode &&& U_OWRITE ≠ 0) (hsize : size ≠ 0)
    (hfit : dataPages (dataLen size count) ≤ s.cacheSize)
    (hthrough : (Call.uwrite stream buffer size count).Through allowed s) (h0 : I [] s)
    (hstep : ∀ k made t, I made t → allowed (writeStep stream buffer (dataLen size count) k) t →
      ∃ t', (writeStep stream buffer (dataLen size count) k).act t = .ok t' ∧
        I (made ++ (t'.lruList.head.bind t'.imageAt).toList) t') :
    ∃ s', uwrite s buffer size count stream = .ok (s', dataLen size count / size) ∧
      I (imagesOf ((Call.uwrite stream buffer size count).steps s.cacheSize) s) s' := by
  generalize hf : writeStep stream buffer (dataLen size count) = f at hstep
  generalize hn : writeCount (dataLen size count) = n
  have hsteps : (Call.uwrite stream buffer size count).steps s.cacheSize =
      (List.range' 0 (n - 0)).map f := by
    rw [steps_uwrite hmode hfit, hn, hf, List.range_eq_range', Nat.sub_zero]
  obtain ⟨s', heq, made, hi, hmade⟩ := uwrite_rule hmode hsize hfit hthrough
    (P := fun k t => ∃ made, I made t ∧ made ++ imagesOf ((List.range' k (n - k)).map f) t =
      imagesOf ((List.range' 0 (n - 0)).map f) s)
    ⟨[], h0, rfl⟩
    (fun k hk t hp ha => by
      obtain ⟨made, hi, hmade⟩ := hp
      rw [hf] at ha ⊢
      obtain ⟨t', hact, hi'⟩ := hstep k made t hi ha
      rw [imagesOf_range' (hn ▸ hk) hact, ← List.append_assoc] at hmade
      exact ⟨t', hact, _, hi', hmade⟩)
  refine ⟨s', heq, ?_⟩
  rw [hn, Nat.sub_self, List.range'_zero, List.map_nil, imagesOf, List.append_nil, ← hsteps]
    at hmade
  exact hmade ▸ hi

theorem Writing.enabled_uwrite {stream : UFile} {buffer : Nat → UInt8} {size count : Nat}
    (he : w.enabled (.uwrite stream buffer size count) = true) : stream.mode &&& U_OWRITE ≠ 0 ∧
      size ≠ 0 ∧ dataPages (dataLen size count) ≤ w.state.cacheSize := by
  simp only [Writing.enabled, Bool.and_eq_true, bne_iff_ne, decide_eq_true_eq] at he
  obtain ⟨⟨hmode, hpos⟩, hle⟩ := he
  refine ⟨hmode, fun h0 => by simp [h0] at hpos, ?_⟩
  unfold dataPages dataLen u32 PAGE_SIZE at *
  omega

-- A write that returns has produced the pages of its buffer.
theorem Writing.produced {w' : Writing} (h : Produced w.calls w.images) (he : w.enabled c = true)
    (hact : w.act c = .ok w') : Produced w'.calls w'.images := by
  cases c with
  | uread stream buffer size count first => simp [Writing.enabled] at he
  | uwrite stream buffer size count =>
      obtain ⟨hmode, -, hfit⟩ := Writing.enabled_uwrite he
      obtain ⟨s', hcall, hact⟩ := bind_eq_ok.mp hact
      obtain ⟨⟨s₁, n⟩, heq, -⟩ := bind_eq_ok.mp hcall
      obtain rfl := Except.ok.inj hact
      exact h.append ((steps_fill hmode hfit (uwrite_through hmode hfit heq)).stores hmode)

theorem Pending.call (hN : 2 ≤ cacheSize) (h : Pending cacheSize w.state w.images lru free)
    (he : w.enabled c = true) : c.Through (fun _ => Partitioned) w.state ∧ ∃ w' lru' free',
      w.act c = .ok w' ∧ Pending cacheSize w'.state w'.images lru' free' := by
  cases c with
  | uread stream buffer size count first => simp [Writing.enabled] at he
  | uwrite stream buffer size count =>
      obtain ⟨hmode, hsize, hfit⟩ := Writing.enabled_uwrite he
      have hthrough : (Call.uwrite stream buffer size count).Through (fun _ => Partitioned)
          w.state := by
        unfold Call.Through
        rw [steps_uwrite hmode hfit]
        refine h.along hN _ fun a ha => ?_
        obtain ⟨k, -, rfl⟩ := List.mem_map.mp ha
        exact ⟨_, _, _, rfl⟩
      obtain ⟨s', heq, lru', free', hp⟩ := uwrite_images_rule
        (fun made t => ∃ lru free, Pending cacheSize t (w.images ++ made) lru free) hmode hsize hfit
        hthrough ⟨lru, free, by simpa using h⟩ (fun k made t hp _ => by
          obtain ⟨lru, free, hp⟩ := hp
          obtain ⟨t', lru', free', hact, hp'⟩ := hp.step hN (pageKey stream k)
            (min PAGE_SIZE (dataLen size count - k * PAGE_SIZE)) fun i => buffer (k * PAGE_SIZE + i)
          rw [List.append_assoc] at hp'
          exact ⟨t', hact, lru', free', hp'⟩)
      refine ⟨hthrough, ⟨s', w.calls ++ [.uwrite stream buffer size count], _⟩, lru', free', ?_, hp⟩
      unfold Writing.act Call.act
      simp only [heq, bind, Except.bind, pure, Except.pure]

end Invariant

theorem pending_of_reachable {w : Writing} {cacheSize : Nat} (hN : 2 ≤ cacheSize)
    (h : (writeOnly cacheSize).Reachable System.Always w) :
    (∃ lru free, Pending cacheSize w.state w.images lru free) ∧ Produced w.calls w.images := by
  induction h with
  | start hw =>
      rename_i w
      obtain ⟨⟨store, hlog, hs⟩, hcalls, himages⟩ := hw
      obtain ⟨hlists, hsize, hstore, hentries⟩ := initPageCache_spec cacheSize store
      rw [← hs] at hlists hsize hstore hentries
      refine ⟨⟨[], _, hlists, hsize, fun i hi => absurd hi (by simp), fun key => ?_, ?_⟩, ?_⟩
      · rw [hentries]
        rfl
      · rw [himages, hstore]
        simp [Store.writes, hlog]
      · rw [hcalls, himages]
        exact ⟨[], .nil, rfl⟩
  | step _ he _ hact ih =>
      obtain ⟨⟨lru, free, hw⟩, hmade⟩ := ih
      obtain ⟨-, w₁, lru', free', hact', hw'⟩ := hw.call hN he
      obtain rfl := Except.ok.inj (hact'.symm.trans hact)
      exact ⟨⟨lru', free', hw'⟩, Writing.produced hmade he hact⟩

-- In every run of writes both lists stay whole, no write fails, and the pios that evictions
-- have submitted are the first of the images the writes have produced, in order. Each write
-- has produced the pages of its own buffer.
theorem write_only_runs {w : Writing} {cacheSize : Nat} (hN : 2 ≤ cacheSize)
    (h : (writeOnly cacheSize).Reachable System.Always w) :
    Partitioned w.state ∧ w.state.store.writes <+: w.images ∧ Produced w.calls w.images ∧
      ∀ c, w.enabled c = true →
        c.Through (fun _ => Partitioned) w.state ∧ ∃ w', w.act c = .ok w' := by
  obtain ⟨⟨lru, free, hw⟩, hmade⟩ := pending_of_reachable hN h
  refine ⟨hw.partitioned, hw.order ▸ List.prefix_append _ _, hmade, fun c he => ?_⟩
  obtain ⟨hthrough, w', _, _, hact, -⟩ := hw.call hN he
  exact ⟨hthrough, w', hact⟩

def Writing.boot : Writing := ⟨initPageCache 2 emptyStore, [], []⟩

theorem writingBoot_start : (writeOnly 2).start Writing.boot :=
  ⟨⟨emptyStore, rfl, rfl⟩, rfl, rfl⟩

-- The same page twice, then another one.
def rewriteRun : List Call := [pageWrite 0 1, pageWrite 0 2, pageWrite 1 3]

theorem write_only_runs_rewriteRun : ∃ w : Writing, w.images.length = 3 ∧ w.calls.length = 3 ∧
    w.state.store.writes.length = 1 ∧ w.state.store.writes <+: w.images ∧
    Produced w.calls w.images := by
  obtain ⟨w, hw, hp⟩ := (System.Reachable.start writingBoot_start).exists_run
    (fun _ _ _ => trivial)
    (show _ = true from (by decide +kernel : ((writeOnly 2).run Writing.boot rewriteRun).any
      (fun w => w.images.length == 3 && w.calls.length == 3 &&
        w.state.store.writes.length == 1) = true))
  simp only [Bool.and_eq_true, beq_iff_eq] at hp
  obtain ⟨-, hprefix, hmade, -⟩ := write_only_runs (by decide) hw
  exact ⟨w, hp.1.1, hp.1.2, hp.2, hprefix, hmade⟩

end UserPageCache.PageCache
