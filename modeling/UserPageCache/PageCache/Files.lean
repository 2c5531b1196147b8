import UserPageCache.PageCache.Contents

namespace UserPageCache.PageCache

-- What a user of the page cache has in mind: each file is its bytes.
abbrev Files := CString → Nat → UInt8

def Files.write (f : Files) (path : CString) (offset len : Nat) (src : Nat → UInt8) : Files :=
  Function.update f path (Bytes.write (f path) offset len src)

def Files.pages (f : Files) : Contents := fun key => Bytes.chunk PAGE_SIZE (f key.1) key.2

-- The bytes that a store holds.
def Store.files (d : Store) : Files := fun path i => (d.pages path (i / PAGE_SIZE)).bytes i

section Pages

variable {f : Files} {path : CString} {buffer : Nat → UInt8} {len p k : Nat}

theorem Store.files_pages (d : Store) : d.files.pages = fun key => d.pages key.1 key.2 := by
  funext key j
  unfold Files.pages Store.files Bytes.chunk Frame.bytes
  simp only [Bytes.div_chunk, Bytes.mod_chunk]

theorem Files.write_zero (f : Files) (path : CString) (offset : Nat) (src : Nat → UInt8) :
    f.write path offset 0 src = f := by
  unfold Files.write
  rw [Bytes.write_zero, Function.update_eq_self]

-- A write that goes one page further changes that page.
theorem Files.write_page {offset : Nat} (ha : offset % PAGE_SIZE = 0) (f : Files) (path : CString)
    (buffer : Nat → UInt8) (len k : Nat) :
    (f.write path offset (min len ((k + 1) * PAGE_SIZE)) buffer).pages =
      Function.update (f.write path offset (min len (k * PAGE_SIZE)) buffer).pages
        (path, offset / PAGE_SIZE + k) (fillFrame
          ((f.write path offset (min len (k * PAGE_SIZE)) buffer).pages
            (path, offset / PAGE_SIZE + k))
          (min PAGE_SIZE (len - k * PAGE_SIZE)) fun i => buffer (k * PAGE_SIZE + i)) := by
  obtain ⟨p, rfl⟩ := Nat.dvd_of_mod_eq_zero ha
  rw [Nat.mul_comm, Nat.mul_div_cancel _ (by decide)]
  funext key j
  obtain ⟨path', q⟩ := key
  have hj := j.isLt
  by_cases hpath : path' = path
  · subst hpath
    by_cases hq : q = p + k
    · subst hq
      simp only [Function.update_self, fillFrame, Files.pages, Files.write, Bytes.chunk, Bytes.write]
      have hsub : (p + k) * PAGE_SIZE + j - p * PAGE_SIZE = k * PAGE_SIZE + j := by
        rw [Nat.add_mul]
        omega
      unfold PAGE_SIZE at *
      split_ifs <;> first | omega | rw [hsub] | rfl
    · rw [Function.update_of_ne (by simp [hq])]
      simp only [Files.pages, Files.write, Bytes.chunk, Bytes.write, Function.update_self]
      unfold PAGE_SIZE at *
      split_ifs <;> first | omega | rfl
  · rw [Function.update_of_ne (by simp [hpath])]
    simp [Files.pages, Files.write, hpath]

end Pages

section Requests

-- The page that a partial write will take already holds the rest of the page.
def Padded : PageStep → State → Prop
  | .write key copyLen _, s =>
    match s.fresh with
    | some pg => ∀ j : Fin PAGE_SIZE, copyLen ≤ j → s.physBase pg j = s.view key j
    | none => True
  | .read _, _ => True

theorem padded_write {s : State} {pg copyLen : Nat} {key : Key} {src : Nat → UInt8}
    (hf : s.fresh = some pg) : Padded (.write key copyLen src) s ↔
      ∀ j : Fin PAGE_SIZE, copyLen ≤ j → s.physBase pg j = s.view key j := by
  simp [Padded, hf]

-- The pages of a request of some bytes are numbered by unsigned int.
def InRange (offset len : Nat) : Prop :=
  0 < len ∧ len + PAGE_SIZE ≤ 2 ^ 32 ∧ offset + len ≤ 2 ^ 32 * PAGE_SIZE

instance (offset len : Nat) : Decidable (InRange offset len) := by
  unfold InRange
  infer_instance

variable {f : Files} {stream : UFile} {buffer : Nat → UInt8} {size count cacheSize : Nat}
  {s s' : State} {lru free : List Nat}

theorem dataLen_eq (hr : InRange stream.ioOffset (size * count)) :
    dataLen size count = size * count := by
  have hlen := hr.2.1
  unfold dataLen
  exact u32_of_lt (by unfold PAGE_SIZE at hlen; omega)

theorem pageKey_eq {k : Nat} (hr : InRange stream.ioOffset (size * count))
    (hk : k * PAGE_SIZE < size * count) :
    pageKey stream k = (stream.pathName, stream.ioOffset / PAGE_SIZE + k) := by
  have hend := hr.2.2
  unfold pageKey streamIndex u32
  unfold PAGE_SIZE at *
  congr 1
  omega

theorem dataPages_le (hr : InRange stream.ioOffset (size * count))
    (hle : size * count ≤ cacheSize * PAGE_SIZE) : dataPages (dataLen size count) ≤ cacheSize := by
  rw [dataLen_eq hr]
  unfold dataPages u32 PAGE_SIZE at *
  omega

theorem fillFrame_congr {frame frame' : Frame} {copyLen : Nat} {src : Nat → UInt8}
    (h : ∀ j : Fin PAGE_SIZE, copyLen ≤ j → frame j = frame' j) :
    fillFrame frame copyLen src = fillFrame frame' copyLen src := by
  funext j
  unfold fillFrame
  split
  · rfl
  · exact h j (Nat.le_of_not_lt ‹_›)

-- What a write through the cache leaves: its last page was taken in `s₀`, and before that
-- page the view was the one of the files with the earlier pages written.
structure LastPage (f : Files) (stream : UFile) (buffer : Nat → UInt8) (len : Nat) (s s₀ s' : State)
    (pg : Nat) : Prop where
  before : s₀.view = (f.write stream.pathName stream.ioOffset
    (min len ((writeCount len - 1) * PAGE_SIZE)) buffer).pages
  fresh : s₀.fresh = some pg
  cached : (s'.entries (pageKey stream (writeCount len - 1))).head? = some pg
  after : s'.view = Function.update s₀.view (pageKey stream (writeCount len - 1))
    (fillFrame (s₀.physBase pg) (min PAGE_SIZE (len - (writeCount len - 1) * PAGE_SIZE)) fun i =>
      buffer ((writeCount len - 1) * PAGE_SIZE + i))
  padded : System.Along PageStep.act Padded
      ((List.range (writeCount len)).map (writeStep stream buffer len)) s ↔
    Padded (writeStep stream buffer len (writeCount len - 1)) s₀

theorem Coherent.uwrite (h : Coherent cacheSize s lru free) (hN : 2 ≤ cacheSize)
    (hview : s.view = f.pages) (hmode : stream.mode &&& U_OWRITE ≠ 0)
    (ha : stream.ioOffset % PAGE_SIZE = 0) (hle : size * count ≤ cacheSize * PAGE_SIZE)
    (hr : InRange stream.ioOffset (size * count))
    (hthrough : (Call.uwrite stream buffer size count).Through Harmless s) :
    ∃ s' s₀ pg, (∃ lru' free', Coherent cacheSize s' lru' free') ∧
      PageCache.uwrite s buffer size count stream = .ok (s', count) ∧
      LastPage f stream buffer (size * count) s s₀ s' pg := by
  have hsize : size ≠ 0 := fun h0 => by
    have hpos := hr.1
    simp [h0] at hpos
  have hlen := dataLen_eq hr
  have hfit := dataPages_le hr (h.size.symm ▸ hle)
  generalize hn : writeCount (size * count) = n
  have hpos : 0 < n := hn ▸ Nat.succ_pos _
  obtain ⟨s', heq, hc, hdone⟩ := uwrite_rule hmode hsize hfit hthrough
    (P := fun k t => (∃ lru free, Coherent cacheSize t lru free) ∧
      if k < n then
        t.view = (f.write stream.pathName stream.ioOffset (min (size * count) (k * PAGE_SIZE))
          buffer).pages ∧
        (System.Along PageStep.act Padded
          ((List.range (writeCount (size * count))).map (writeStep stream buffer (size * count))) s ↔
        System.Along PageStep.act Padded
          ((List.range' k (n - k)).map (writeStep stream buffer (size * count))) t)
      else ∃ s₀ pg, LastPage f stream buffer (size * count) s s₀ t pg)
    ⟨⟨lru, free, h⟩, by
      rw [if_pos hpos, Nat.zero_mul, Nat.min_zero, Files.write_zero, hn, List.range_eq_range',
        Nat.sub_zero]
      exact ⟨hview, Iff.rfl⟩⟩
    (fun k hk t hp hharmless => by
      rw [hlen, hn] at hk
      rw [if_pos hk] at hp
      rw [hlen] at hharmless ⊢
      obtain ⟨⟨lru, free, hc⟩, hv, hpad⟩ := hp
      obtain ⟨t', pg, lru', free', hact, hfresh, hhead, hc', -, hv'⟩ := hc.uwritePage hN hharmless.1
        hharmless.2 (pageKey stream k) (min PAGE_SIZE (size * count - k * PAGE_SIZE))
        fun i => buffer (k * PAGE_SIZE + i)
      have hact' : (writeStep stream buffer (size * count) k).act t = .ok t' := hact
      refine ⟨t', hact', ⟨lru', free', hc'⟩, ?_⟩
      by_cases hlast : k + 1 < n
      -- A page that is not the last is full, whatever was in the memory it takes.
      · have hmore := more_pages (hn.symm ▸ hlast : k + 1 < writeCount (size * count))
        have hall : ∀ j : Fin PAGE_SIZE, ¬ min PAGE_SIZE (size * count - k * PAGE_SIZE) ≤ j := by
          intro j
          have hj := j.isLt
          omega
        have hbefore : k * PAGE_SIZE < size * count := by omega
        rw [if_pos hlast]
        constructor
        · rw [hv', hv, pageKey_eq hr hbefore, Files.write_page ha]
          exact congrArg _ (fillFrame_congr fun j hj => absurd hj (hall j))
        · rw [hpad, System.along_range' hk hact']
          exact and_iff_right ((padded_write hfresh).mpr fun j hj => absurd hj (hall j))
      · obtain rfl : k = n - 1 := by omega
        rw [if_neg hlast]
        subst hn
        refine ⟨t, pg, hv, hfresh, hhead, hv', hpad.trans ?_⟩
        rw [System.along_range' hk hact']
        refine and_iff_left ?_
        rw [show writeCount (size * count) - (writeCount (size * count) - 1 + 1) = 0 by omega]
        trivial)
  rw [hlen, hn, if_neg (Nat.lt_irrefl n)] at hdone
  obtain ⟨s₀, pg, hlast⟩ := hdone
  refine ⟨s', s₀, pg, hc, ?_, hlast⟩
  rw [heq, hlen, Nat.mul_div_cancel_left _ (Nat.pos_of_ne_zero hsize)]

-- With the rest of the last page in place the view is that of the files written to.
theorem LastPage.refines {len : Nat} {s₀ : State} {pg : Nat}
    (h : LastPage f stream buffer len s s₀ s' pg) (ha : stream.ioOffset % PAGE_SIZE = 0)
    (hkey : pageKey stream (writeCount len - 1) =
      (stream.pathName, stream.ioOffset / PAGE_SIZE + (writeCount len - 1)))
    (hp : Padded (writeStep stream buffer len (writeCount len - 1)) s₀) :
    s'.view = (f.write stream.pathName stream.ioOffset len buffer).pages := by
  have hlen : min len ((writeCount len - 1 + 1) * PAGE_SIZE) = len := by
    unfold writeCount PAGE_SIZE
    omega
  have hpage := Files.write_page ha f stream.pathName buffer len (writeCount len - 1)
  rw [hlen] at hpage
  rw [hpage, h.after, h.before, hkey]
  refine congrArg _ (fillFrame_congr fun j hj => ?_)
  rw [(padded_write h.fresh).mp hp j hj, h.before, hkey]

theorem last_pageKey (hr : InRange stream.ioOffset (size * count)) :
    pageKey stream (writeCount (size * count) - 1) = (stream.pathName,
      stream.ioOffset / PAGE_SIZE + (writeCount (size * count) - 1)) := by
  refine pageKey_eq hr ?_
  have hpos := hr.1
  unfold writeCount PAGE_SIZE
  omega

theorem Files.pages_bytes {offset i : Nat} (ha : offset % PAGE_SIZE = 0) (f : Files) (path : CString) :
    (f.pages (path, offset / PAGE_SIZE + i / PAGE_SIZE)).bytes i = f path (offset + i) := by
  unfold Files.pages Frame.bytes Bytes.chunk
  refine congrArg _ ?_
  unfold PAGE_SIZE at *
  simp only
  omega

-- A read through the cache gives what the view has of its pages.
theorem Coherent.uread_view (h : Coherent cacheSize s lru free) (hN : 2 ≤ cacheSize)
    (hle : size * count ≤ cacheSize * PAGE_SIZE) (hr : InRange stream.ioOffset (size * count))
    (buffer : Nat → UInt8) (first : Bool)
    (hthrough : (Call.uread stream buffer size count first).Through Harmless s) :
    ∃ s' buffer' n, (∃ lru' free', Coherent cacheSize s' lru' free') ∧
      PageCache.uread s buffer size count stream first = .ok (s', buffer', n / size) ∧
      s'.view = s.view ∧
      (∀ i < size * count, buffer' i = (s.view (pageKey stream (i / PAGE_SIZE))).bytes i) ∧
      size * count ≤ n ∧ n ≤ readCount (size * count) * PAGE_SIZE := by
  have hsize : size ≠ 0 := fun h0 => by
    have hpos := hr.1
    simp [h0] at hpos
  have hlen := dataLen_eq hr
  have hfit := dataPages_le hr (h.size.symm ▸ hle)
  obtain ⟨s', buffer', n, heq, ⟨hc, hv⟩, hbytes, hn⟩ := uread_rule hsize hfit (hlen ▸ hr.2.1) hthrough
    (P := fun _ t => (∃ lru free, Coherent cacheSize t lru free) ∧ t.view = s.view)
    (Q := fun k frame => frame = s.view (pageKey stream k)) ⟨⟨lru, free, h⟩, rfl⟩
    (fun k hk t hp hharmless => by
      obtain ⟨⟨lru, free, hc⟩, hv⟩ := hp
      obtain ⟨t', pg, lru', free', hact, hc', hframe, hv'⟩ :=
        hc.ureadPage hN (pageKey stream k) hharmless
      exact ⟨t', pg, hact, hframe.trans (congrFun hv _), ⟨lru', free', hc'⟩, hv'.trans hv⟩)
  rw [hlen] at hbytes hn
  refine ⟨s', buffer', n, hc, heq, hv, fun i hi => ?_, hn⟩
  obtain ⟨frame, rfl, hi'⟩ := hbytes i hi
  exact hi'

theorem Coherent.uread (h : Coherent cacheSize s lru free) (hN : 2 ≤ cacheSize)
    (hview : s.view = f.pages) (ha : stream.ioOffset % PAGE_SIZE = 0)
    (hle : size * count ≤ cacheSize * PAGE_SIZE) (hr : InRange stream.ioOffset (size * count))
    (buffer : Nat → UInt8) (first : Bool)
    (hthrough : (Call.uread stream buffer size count first).Through Harmless s) :
    ∃ s' buffer' n, (∃ lru' free', Coherent cacheSize s' lru' free') ∧
      PageCache.uread s buffer size count stream first = .ok (s', buffer', n / size) ∧
      s'.view = f.pages ∧ (∀ i < size * count, buffer' i = f stream.pathName (stream.ioOffset + i)) ∧
      size * count ≤ n ∧ n ≤ readCount (size * count) * PAGE_SIZE := by
  obtain ⟨s', buffer', n, hc, heq, hv, hbytes, hn⟩ := h.uread_view hN hle hr buffer first hthrough
  refine ⟨s', buffer', n, hc, heq, hv.trans hview, fun i hi => ?_, hn⟩
  have hbefore : i / PAGE_SIZE * PAGE_SIZE < size * count :=
    (Nat.div_mul_le_self i PAGE_SIZE).trans_lt hi
  rw [hbytes i hi, hview, pageKey_eq hr hbefore, Files.pages_bytes ha]

end Requests

end UserPageCache.PageCache
