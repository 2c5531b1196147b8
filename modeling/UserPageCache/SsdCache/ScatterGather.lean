import UserPageCache.Basic

namespace UserPageCache.SsdCache

structure Iovec where
  iovBase : Nat
  iovLen : Nat

structure IoReq where
  isCompleted : Bool
  iovOffset : Nat
  iovs : List Iovec
  iovPos : Nat
  iovCnt : Nat

-- iov_offset is left as it is.
def initReq (req : IoReq) (iov : List Iovec) (iovcnt : Nat) : IoReq :=
  { req with isCompleted := false, iovs := iov, iovPos := 0, iovCnt := iovcnt }

section Callbacks

-- The loop of reset_sgl_fn; there is no iovec behind the array.
def skipIovs (req : IoReq) : Option IoReq := do
  if req.iovPos < req.iovCnt then
    let iov ← req.iovs[req.iovPos]?
    if req.iovOffset < iov.iovLen then return req
    skipIovs { req with
      iovOffset := u32 (req.iovOffset - iov.iovLen)
      iovPos := req.iovPos + 1 }
  else return req
termination_by req.iovCnt - req.iovPos

def resetSglFn (req : IoReq) (sglOffset : Nat) : Option IoReq :=
  skipIovs { req with iovOffset := sglOffset, iovPos := 0 }

-- The address and the length of the segment, as an iovec.
def nextSgeFn (req : IoReq) : Option (IoReq × Iovec) := do
  let iov ← req.iovs[req.iovPos]?
  let segment : Iovec :=
    if req.iovOffset ≠ 0 then
      ⟨iov.iovBase + req.iovOffset, u32 (u32 iov.iovLen + 2 ^ 32 - req.iovOffset)⟩
    else ⟨iov.iovBase, u32 iov.iovLen⟩
  let iovOffset := u32 (req.iovOffset + segment.iovLen)
  if iovOffset = iov.iovLen then
    return ({ req with iovPos := req.iovPos + 1, iovOffset := 0 }, segment)
  return ({ req with iovOffset := iovOffset }, segment)

-- next_sge_fn until iov_pos reaches iov_cnt, in at most this many calls.
def nextSges : Nat → IoReq → Option (IoReq × List Iovec)
  | calls, req =>
    if req.iovPos = req.iovCnt then some (req, [])
    else match calls with
      | 0 => none
      | calls + 1 => do
        let (req, segment) ← nextSgeFn req
        let (req, segments) ← nextSges calls req
        return (req, segment :: segments)

end Callbacks

-- The addresses of the bytes.
def Iovec.bytes (iov : Iovec) : List Nat := List.range' iov.iovBase iov.iovLen

def bytesOf (iovs : List Iovec) : List Nat := iovs.flatMap Iovec.bytes

-- What the req still has to yield.
def IoReq.remaining (req : IoReq) : List Nat :=
  (bytesOf (req.iovs.drop req.iovPos)).drop req.iovOffset

-- Between two callbacks the offset lies in the iovec at iov_pos.
structure IoReq.Ready (req : IoReq) : Prop where
  cnt : req.iovs.length = req.iovCnt
  total : (bytesOf req.iovs).length < 2 ^ 32
  pos : req.iovPos ≤ req.iovCnt
  offset : ∀ iov, req.iovs[req.iovPos]? = some iov → req.iovOffset ≤ iov.iovLen

variable {req req' : IoReq} {iov segment : Iovec}

section Bytes

theorem Iovec.bytes_length (iov : Iovec) : iov.bytes.length = iov.iovLen := List.length_range'

theorem bytesOf_drop {iovs : List Iovec} {pos : Nat} (h : iovs[pos]? = some iov) :
    bytesOf (iovs.drop pos) = iov.bytes ++ bytesOf (iovs.drop (pos + 1)) := by
  obtain ⟨hlt, hiov⟩ := List.getElem?_eq_some_iff.mp h
  rw [List.drop_eq_getElem_cons hlt, hiov, bytesOf, List.flatMap_cons]
  rfl

theorem iovLen_le {iovs : List Iovec} (h : iov ∈ iovs) : iov.iovLen ≤ (bytesOf iovs).length := by
  rw [← iov.bytes_length]
  exact (List.sublist_flatten_of_mem (List.mem_map_of_mem h)).length_le

theorem bytesOf_drop_length_le (iovs : List Iovec) (pos : Nat) :
    (bytesOf (iovs.drop pos)).length ≤ (bytesOf iovs).length := by
  have hparts : bytesOf iovs = bytesOf (iovs.take pos) ++ bytesOf (iovs.drop pos) := by
    unfold bytesOf
    rw [← List.flatMap_append, List.take_append_drop]
  rw [hparts, List.length_append]
  exact Nat.le_add_left _ _

end Bytes

namespace IoReq

theorem Ready.get (h : req.Ready) (hpos : req.iovPos < req.iovCnt) :
    ∃ iov, req.iovs[req.iovPos]? = some iov ∧ iov.iovLen < 2 ^ 32 := by
  have hlt : req.iovPos < req.iovs.length := h.cnt ▸ hpos
  refine ⟨req.iovs[req.iovPos], List.getElem?_eq_getElem hlt, ?_⟩
  exact (iovLen_le (List.getElem_mem hlt)).trans_lt h.total

-- The iovec at iov_pos has been passed.
theorem Ready.next (h : req.Ready) (hpos : req.iovPos < req.iovCnt) :
    { req with iovPos := req.iovPos + 1, iovOffset := 0 : IoReq }.Ready where
  cnt := h.cnt
  total := h.total
  pos := hpos
  offset _ _ := Nat.zero_le _

theorem remaining_eq (h : req.iovs[req.iovPos]? = some iov) (hle : req.iovOffset ≤ iov.iovLen) :
    req.remaining = List.range' (iov.iovBase + req.iovOffset) (iov.iovLen - req.iovOffset) ++
      { req with iovPos := req.iovPos + 1, iovOffset := 0 : IoReq }.remaining := by
  unfold remaining
  rw [bytesOf_drop h, List.drop_append_of_le_length (by rwa [iov.bytes_length]), List.drop_zero,
    Iovec.bytes, List.drop_range', Nat.mul_one]

theorem remaining_end (hcnt : req.iovs.length = req.iovCnt) (hpos : req.iovPos = req.iovCnt) :
    req.remaining = [] := by
  unfold remaining
  rw [List.drop_eq_nil_of_le (hcnt.trans hpos.symm).le, bytesOf, List.flatMap_nil, List.drop_nil]

-- A call yields the rest of the iovec at iov_pos and goes on to the next.
theorem Ready.nextSgeFn (h : req.Ready) (hpos : req.iovPos < req.iovCnt) : ∃ segment,
    nextSgeFn req = some ({ req with iovPos := req.iovPos + 1, iovOffset := 0 }, segment) ∧
      req.remaining = segment.bytes ++
        { req with iovPos := req.iovPos + 1, iovOffset := 0 : IoReq }.remaining := by
  obtain ⟨iov, hiov, hlen⟩ := h.get hpos
  have hle := h.offset iov hiov
  have hrest : u32 (u32 iov.iovLen + 2 ^ 32 - req.iovOffset) = iov.iovLen - req.iovOffset := by
    rw [u32_of_lt hlen]
    unfold u32
    omega
  refine ⟨⟨iov.iovBase + req.iovOffset, iov.iovLen - req.iovOffset⟩, ?_, remaining_eq hiov hle⟩
  have hsegment : (if req.iovOffset ≠ 0 then
      (⟨iov.iovBase + req.iovOffset, u32 (u32 iov.iovLen + 2 ^ 32 - req.iovOffset)⟩ : Iovec)
      else ⟨iov.iovBase, u32 iov.iovLen⟩) =
        ⟨iov.iovBase + req.iovOffset, iov.iovLen - req.iovOffset⟩ := by
    by_cases hzero : req.iovOffset = 0
    · rw [if_neg (not_not.mpr hzero), hzero, u32_of_lt hlen, Nat.add_zero, Nat.sub_zero]
    · rw [if_pos hzero, hrest]
  have hoffset : u32 (req.iovOffset + (iov.iovLen - req.iovOffset)) = iov.iovLen := by
    rw [Nat.add_sub_cancel' hle, u32_of_lt hlen]
  unfold SsdCache.nextSgeFn
  simp only [hiov, hsegment, hoffset, Option.bind_eq_bind, Option.bind_some, ite_true]
  rfl

-- The segments are what was left, whatever iov_pos is.
theorem Ready.nextSges (calls : Nat) : ∀ {req : IoReq}, req.Ready →
    req.iovCnt - req.iovPos ≤ calls → ∃ req' segments, nextSges calls req = some (req', segments) ∧
      req'.iovPos = req'.iovCnt ∧ bytesOf segments = req.remaining := by
  induction calls with
  | zero =>
      intro req h hcalls
      have hpos : req.iovPos = req.iovCnt := by have := h.pos; omega
      refine ⟨req, [], by simp [SsdCache.nextSges, hpos], hpos, ?_⟩
      rw [remaining_end h.cnt hpos]
      rfl
  | succ calls ih =>
      intro req h hcalls
      by_cases hpos : req.iovPos = req.iovCnt
      · refine ⟨req, [], by simp [SsdCache.nextSges, hpos], hpos, ?_⟩
        rw [remaining_end h.cnt hpos]
        rfl
      · have hlt : req.iovPos < req.iovCnt := by have := h.pos; omega
        obtain ⟨segment, hnext, hremaining⟩ := h.nextSgeFn hlt
        obtain ⟨req', segments, hrest, hend, hbytes⟩ := ih (h.next hlt) (by simp only; omega)
        refine ⟨req', segment :: segments, ?_, hend, ?_⟩
        · simp [SsdCache.nextSges, hpos, hnext, hrest]
        · rw [hremaining, ← hbytes]
          rfl

-- The loop of reset_sgl_fn keeps what is to be yielded and ends inside an iovec.
theorem skipIovs_ready (n : Nat) : ∀ req : IoReq, req.iovCnt - req.iovPos = n →
    req.iovs.length = req.iovCnt → (bytesOf req.iovs).length < 2 ^ 32 → req.iovPos ≤ req.iovCnt →
    req.iovOffset < (bytesOf (req.iovs.drop req.iovPos)).length →
    ∃ req', skipIovs req = some req' ∧ req'.Ready ∧ req'.iovCnt = req.iovCnt ∧
      req'.remaining = req.remaining := by
  induction n with
  | zero =>
      intro req hn hcnt _ _ hoffset
      rw [List.drop_eq_nil_of_le (by omega)] at hoffset
      simp [bytesOf] at hoffset
  | succ n ih =>
      intro req hn hcnt htotal hpos hoffset
      have hlt : req.iovPos < req.iovs.length := by omega
      have hiov : req.iovs[req.iovPos]? = some req.iovs[req.iovPos] :=
        List.getElem?_eq_getElem hlt
      generalize hget : req.iovs[req.iovPos] = iov at hiov
      rw [skipIovs, if_pos (by omega), hiov]
      by_cases hin : req.iovOffset < iov.iovLen
      · refine ⟨req, by simp [hin], ⟨hcnt, htotal, hpos, fun iov' hiov' => ?_⟩, rfl, rfl⟩
        obtain rfl := Option.some.inj (hiov.symm.trans hiov')
        exact hin.le
      · have hbytes := bytesOf_drop hiov
        have hlen := congrArg List.length hbytes
        rw [List.length_append, iov.bytes_length] at hlen
        have hle := bytesOf_drop_length_le req.iovs req.iovPos
        have hsub : u32 (req.iovOffset - iov.iovLen) = req.iovOffset - iov.iovLen :=
          u32_of_lt (by omega)
        have hpassed : iov.bytes.drop req.iovOffset = [] :=
          List.drop_eq_nil_of_le (by rw [iov.bytes_length]; omega)
        obtain ⟨req', hskip, hready, hcnt', hremaining⟩ := ih
          { req with iovOffset := u32 (req.iovOffset - iov.iovLen), iovPos := req.iovPos + 1 }
          (by simp only; omega) hcnt htotal (by simp only; omega) (by simp only [hsub]; omega)
        refine ⟨req', by simp [hin, hskip], hready, hcnt', hremaining.trans ?_⟩
        unfold remaining
        rw [hbytes, hsub, List.drop_append, hpassed, iov.bytes_length, List.nil_append]

end IoReq

-- From whatever earlier state, a reset and the calls after it yield the bytes from the offset on.
theorem segments_exact {req : IoReq} {sglOffset calls : Nat}
    (hcnt : req.iovs.length = req.iovCnt) (htotal : (bytesOf req.iovs).length < 2 ^ 32)
    (hoffset : sglOffset < (bytesOf req.iovs).length) (hcalls : req.iovCnt ≤ calls) :
    ∃ req' segments, (resetSglFn req sglOffset).bind (nextSges calls) = some (req', segments) ∧
      req'.iovPos = req'.iovCnt ∧ bytesOf segments = (bytesOf req.iovs).drop sglOffset := by
  obtain ⟨req₁, hreset, hready, hcnt₁, hremaining⟩ := IoReq.skipIovs_ready req.iovCnt
    { req with iovOffset := sglOffset, iovPos := 0 } rfl hcnt htotal (Nat.zero_le _) hoffset
  obtain ⟨req', segments, hnext, hend, hbytes⟩ := hready.nextSges calls (by simp only at hcnt₁; omega)
  refine ⟨req', segments, ?_, hend, hbytes.trans hremaining⟩
  unfold resetSglFn
  rw [hreset, Option.bind_some, hnext]

-- A transfer that stands at the empty buffer.
def halfwayReq : IoReq :=
  { initReq ⟨true, 9, [], 0, 0⟩ [⟨1000, 3⟩, ⟨500, 0⟩, ⟨2000, 2⟩] 3 with iovPos := 1, iovOffset := 0 }

theorem segments_exact_halfway : ∃ req' segments,
    (resetSglFn halfwayReq 1).bind (nextSges 3) = some (req', segments) ∧
      bytesOf segments = [1001, 1002, 2000, 2001] := by
  have hcnt : halfwayReq.iovs.length = halfwayReq.iovCnt := rfl
  obtain ⟨req', segments, heq, -, hbytes⟩ := segments_exact hcnt (by decide)
    (show 1 < (bytesOf halfwayReq.iovs).length by decide) (Nat.le_refl 3)
  exact ⟨req', segments, heq, hbytes⟩

end UserPageCache.SsdCache
