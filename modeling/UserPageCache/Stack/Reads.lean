import UserPageCache.Stack.Shutdown

namespace UserPageCache

open PageCache (Agreeing Call Harmless InRange Key Submission fileA pageKey pageRead pageWrite
  streamA uread)
open SsdCache (Pio Race Work keyOf)

section Promised

variable {s : Race} {g : SsdCache.Geometry} {t : SsdCache.Table Work} {pio : Pio}
  {page : SsdCache.Page}

-- A READ of one page finds what the SSD cache has promised of it, in its block or in the file,
-- as long as the block is not on its way out.
theorem SsdCache.Race.Inv.read_promised (h : s.Inv g t) (hf : pio.Fits s.world)
    (hop : pio.operation = .read) (hone : pio.pioCnt = 1)
    (hpage : s.spec pio.fullPathName pio.pageIndex = some page)
    (hleaving : ∀ cblock ∈ s.worker.leaving, keyOf (s.cache.map.es cblock) ≠ pio.key) :
    ∃ cache w rc,
      SsdCache._submitPio s.cache s.world .success pio = .ok (cache, w, [page], rc) := by
  have hsingle : ∀ pages, s.spec.Returned pio pages → pages = [page] := by
    rintro pages ⟨hlen, hget⟩
    rw [hone] at hlen
    obtain ⟨page', rfl⟩ := List.length_eq_one_iff.mp hlen
    have hfirst : some page' = some page := hget 0 (by omega) page hpage
    rw [Option.some.inj hfirst]
  obtain ⟨m, found, t', hlookup, hc, hfound, hslot⟩ := h.coherent.lookup hf.addressable_key
  have hmap : SsdCache.mapLookup s.cache pio = .ok (m, found) := by
    unfold SsdCache.mapLookup
    rw [if_neg (by simp [SsdCache.optimizable, hop]), hlookup]
  unfold SsdCache._submitPio SsdCache.mapPio
  simp only [hop, reduceCtorEq, ite_false, hf.checked, hmap, bind, Except.bind, pure, Except.pure,
    Bool.not_true]
  cases found with
  | none =>
      obtain ⟨w', pages, rc, heq, hret, -, -⟩ := hc.read_file hf hf.addressable_key hfound
      rw [← hsingle pages hret]
      refine ⟨{ s.cache with map := m }, w', rc, ?_⟩
      simp only [SsdCache.mapToOrigin, hop, ite_true, heq]
  | some b =>
      obtain ⟨hb, hkey⟩ := hfound
      obtain ⟨pages, heq, hret⟩ := hc.read_block hf hb hkey
      have hstays : ∀ key, s.worker ≠ .demoting key b := fun key hw => by
        refine hleaving b (by rw [hw]; rfl) ?_
        rw [← hkey, hslot, h.coherent.repr.slot_eq]
        rfl
      rw [← hsingle pages (hret hstays)]
      refine ⟨{ s.cache with map := m }, s.world, 0, ?_⟩
      simp only [SsdCache.mapToCache, hop, ite_true, heq, bind, Except.bind, pure, Except.pure]

end Promised

namespace Stack

-- The request for one page that a miss of the page cache makes.
def readOf (key : Key) (frame : SsdCache.Page) : Pio := ⟨key.1, 0, key.2, .read, [frame], 1⟩

variable {cacheSize blockSize cblockNum : Nat} {x : Stack}

-- What is not newer in the page cache the SSD cache has promised as it was last written.
theorem Inv.spec_unmarked {key : Key} (h : x.Inv cacheSize) (hr : x.ready = true)
    (hk : key ∈ x.written) (hm : ¬ x.ledger.state.Marked key) :
    x.ssd.spec key.1 key.2 = some (x.ledger.contents key) := by
  obtain ⟨-, hpending, hmissed⟩ := ready_iff.mp hr
  have hspec := (h.kept key hk).resolve_left hm
  rw [promised_ready hpending hmissed] at hspec
  obtain ⟨page, hpage⟩ := Option.isSome_iff_exists.mp hspec
  have hback := h.backs key.1 key.2 page (by rw [x.ssd.promised_nil hmissed, hpage])
  have hbehind : x.behind = x.ledger.state.store := by
    rw [← h.redo, hpending]
    rfl
  rw [hpage, ← h.refines.2, h.faithful key hm, ← hbehind, hback]

theorem Inv.read_unmarked {key : Key} (h : x.Inv cacheSize) (hr : x.ready = true)
    (hk : key ∈ x.written) (hm : ¬ x.ledger.state.Marked key)
    (hleaving : ∀ cblock ∈ x.ssd.worker.leaving, keyOf (x.ssd.cache.map.es cblock) ≠ blockOf key)
    (frame : SsdCache.Page) : ∃ cache w rc,
      SsdCache._submitPio x.ssd.cache x.ssd.world .success (readOf key frame) =
        .ok (cache, w, [x.ledger.contents key], rc) := by
  obtain ⟨g, t, hssd⟩ := h.ssd
  have hf : (readOf key frame).Fits x.ssd.world :=
    fits_pio (e := ⟨.read, key.1, key.2, frame, true⟩) (h.bound key hk)
  exact hssd.read_promised hf rfl rfl (h.spec_unmarked hr hk hm) hleaving

theorem Inv.read_pending {e : Submission} (h : x.Inv cacheSize)
    (he : x.enabled .submitPio = true) (ha : Preserving .submitPio x)
    (hhead : x.pending.head? = some e) (hop : e.operation = .read)
    (hpage : (x.ssd.spec e.pathName e.pageIndex).isSome) : ∃ cache w rc,
      SsdCache._submitPio x.ssd.cache x.ssd.world .success e.pio =
        .ok (cache, w, [x.behind.pages e.pathName e.pageIndex], rc) := by
  simp only [enabled, Bool.and_eq_true, List.isEmpty_iff] at he
  obtain ⟨haddr, hleaving⟩ := ha e hhead
  obtain ⟨g, t, hssd⟩ := h.ssd
  obtain ⟨page, hpage⟩ := Option.isSome_iff_exists.mp hpage
  have hback := h.backs _ _ page (by rw [x.ssd.promised_nil he.2, hpage])
  obtain ⟨cache, w, rc, heq⟩ := hssd.read_promised (fits_pio haddr) hop rfl hpage hleaving
  exact ⟨cache, w, rc, by rw [heq, hback]⟩

end Stack

-- Two pages are written, and the first one is evicted to the file by a read of another page.
def evictedRun : List Deed :=
  [.call (pageWrite 0 1), .call (pageWrite 3 4), .call (pageRead 1), .submitPio,
    .move (.writeOrigin 0)]

end UserPageCache
