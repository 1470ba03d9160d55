import Mathlib.Data.BitVec
import Mathlib.Data.List.Chain

/-! # The size of a socket buffer

A size is asked for until the kernel accepts it. Each time it is moved half of the way down to
the current size, so that at least half of the possible growth is found. The sum of the two
sizes is an `unsigned`; when it wraps, the next size is below the current one and the search
is over after one attempt.
-/

namespace H264Cast.SocketBuffer

/-- What `getsockopt` reports, if it succeeds, and the sizes that `setsockopt` accepts. -/
structure Socket where
  curSize : Option (BitVec 32)
  accepts : BitVec 32 → Bool

def commGetBufferSize (socket : Socket) : BitVec 32 := socket.curSize.getD 0

theorem toNat_midpoint (x y : BitVec 32) :
    ((x + y) / 2).toNat = (x.toNat + y.toNat) % 2 ^ 32 / 2 := rfl

theorem midpoint_lt {requestedSize curSize : BitVec 32} (h : curSize < requestedSize) :
    (requestedSize + curSize) / 2 < requestedSize := by
  rw [BitVec.lt_def] at h ⊢
  rw [toNat_midpoint]
  have := requestedSize.isLt
  omega

/-- The loop: the size returned, if one is accepted, and the sizes tried. -/
def increaseLoop (socket : Socket) (curSize requestedSize : BitVec 32) :
    Option (BitVec 32) × List (BitVec 32) :=
  if _h : curSize < requestedSize then
    if socket.accepts requestedSize then (some requestedSize, [requestedSize])
    else
      let r := increaseLoop socket curSize ((requestedSize + curSize) / 2)
      (r.1, requestedSize :: r.2)
  else (none, [])
termination_by requestedSize.toNat
decreasing_by exact midpoint_lt _h

/-- The size returned and the sizes tried. -/
def commIncreaseBufferTo (socket : Socket) (requestedSize : BitVec 32) :
    BitVec 32 × List (BitVec 32) :=
  let r := increaseLoop socket (commGetBufferSize socket) requestedSize
  (r.1.getD (commGetBufferSize socket), r.2)

/-- A socket of the given size that accepts the sizes up to a limit. -/
def limited (cur limit : BitVec 32) : Socket := ⟨some cur, fun size => size ≤ limit⟩

/-- The search for a size: it returns an accepted one with at least half of the possible
growth, and whatever is accepted, the sizes tried decrease and lie above the current one. -/
structure Grows (cur limit requestedSize : BitVec 32) : Prop where
  accepted : (commIncreaseBufferTo (limited cur limit) requestedSize).1 ∈
    (commIncreaseBufferTo (limited cur limit) requestedSize).2
  cur_lt : cur < (commIncreaseBufferTo (limited cur limit) requestedSize).1
  le_limit : (commIncreaseBufferTo (limited cur limit) requestedSize).1 ≤ limit
  half : (limit.toNat - cur.toNat + 1) / 2 ≤
    (commIncreaseBufferTo (limited cur limit) requestedSize).1.toNat - cur.toNat
  tried : ∀ accepts : BitVec 32 → Bool,
    (commIncreaseBufferTo ⟨some cur, accepts⟩ requestedSize).2.IsChain (· > ·) ∧
      ∀ size ∈ (commIncreaseBufferTo ⟨some cur, accepts⟩ requestedSize).2, cur < size

variable {socket : Socket} {cur limit requestedSize size : BitVec 32}

/-! ## The sizes tried -/

theorem increaseLoop_of_not_lt (h : ¬ cur < requestedSize) :
    increaseLoop socket cur requestedSize = (none, []) := by
  rw [increaseLoop, dif_neg h]

theorem increaseLoop_accepted (h : cur < requestedSize) (ha : socket.accepts requestedSize) :
    increaseLoop socket cur requestedSize = (some requestedSize, [requestedSize]) := by
  rw [increaseLoop, dif_pos h, if_pos ha]

theorem increaseLoop_refused (h : cur < requestedSize) (ha : ¬ socket.accepts requestedSize) :
    increaseLoop socket cur requestedSize =
      ((increaseLoop socket cur ((requestedSize + cur) / 2)).1,
        requestedSize :: (increaseLoop socket cur ((requestedSize + cur) / 2)).2) := by
  rw [increaseLoop, dif_pos h, if_neg ha]

theorem lt_of_mem_tried (h : size ∈ (increaseLoop socket cur requestedSize).2) :
    cur < size ∧ size ≤ requestedSize := by
  induction requestedSize using increaseLoop.induct socket cur with
  | case1 requestedSize hlt ha =>
    rw [increaseLoop_accepted hlt ha, List.mem_singleton] at h
    subst h
    exact ⟨hlt, BitVec.le_refl _⟩
  | case2 requestedSize hlt ha ih =>
    rw [increaseLoop_refused hlt ha, List.mem_cons] at h
    rcases h with rfl | h
    · exact ⟨hlt, BitVec.le_refl _⟩
    · obtain ⟨hcur, hle⟩ := ih h
      exact ⟨hcur, BitVec.le_trans hle (BitVec.le_of_lt (midpoint_lt hlt))⟩
  | case3 requestedSize hlt =>
    rw [increaseLoop_of_not_lt hlt] at h
    exact absurd h List.not_mem_nil

/-- The sizes tried decrease. -/
theorem isChain_tried (socket : Socket) (cur requestedSize : BitVec 32) :
    (increaseLoop socket cur requestedSize).2.IsChain (· > ·) := by
  induction requestedSize using increaseLoop.induct socket cur with
  | case1 requestedSize hlt ha =>
    rw [increaseLoop_accepted hlt ha]
    exact List.isChain_singleton _
  | case2 requestedSize hlt ha ih =>
    rw [increaseLoop_refused hlt ha]
    refine List.isChain_cons.mpr ⟨fun size hsize => ?_, ih⟩
    have hle := (lt_of_mem_tried (List.mem_of_mem_head? hsize)).2
    exact Nat.lt_of_le_of_lt hle (midpoint_lt hlt)
  | case3 requestedSize hlt =>
    rw [increaseLoop_of_not_lt hlt]
    exact List.isChain_nil

/-! ## The size returned -/

/-- When the sum of the sizes does not wrap, a size is accepted as long as the one asked for
is at least half of the way up to the limit. -/
theorem exists_accepted (hlimit : cur < limit)
    (hsum : requestedSize.toNat + cur.toNat < 2 ^ 32)
    (hhalf : (limit.toNat - cur.toNat + 1) / 2 ≤ requestedSize.toNat - cur.toNat) :
    ∃ size ∈ (increaseLoop (limited cur limit) cur requestedSize).2,
      (increaseLoop (limited cur limit) cur requestedSize).1 = some size ∧ size ≤ limit ∧
        (limit.toNat - cur.toNat + 1) / 2 ≤ size.toNat - cur.toNat := by
  rw [BitVec.lt_def] at hlimit
  induction requestedSize using increaseLoop.induct (limited cur limit) cur with
  | case1 requestedSize hlt ha =>
    rw [increaseLoop_accepted hlt ha]
    exact ⟨_, List.mem_singleton_self _, rfl, of_decide_eq_true ha, hhalf⟩
  | case2 requestedSize hlt ha ih =>
    rw [increaseLoop_refused hlt ha]
    have hgt : limit.toNat < requestedSize.toNat := by simpa [limited, BitVec.lt_def] using ha
    have hmid : ((requestedSize + cur) / 2).toNat = (requestedSize.toNat + cur.toNat) / 2 := by
      rw [toNat_midpoint, Nat.mod_eq_of_lt hsum]
    rw [hmid] at ih
    obtain ⟨size, hmem, hsome, hle, hsize⟩ := ih (by omega) (by omega)
    exact ⟨size, List.mem_cons_of_mem _ hmem, hsome, hle, hsize⟩
  | case3 requestedSize hlt =>
    rw [BitVec.lt_def] at hlt
    omega

/-- When the sum wraps the first size is the only one tried. -/
theorem increaseLoop_of_wrap (hcur : cur < requestedSize)
    (hsum : 2 ^ 32 ≤ requestedSize.toNat + cur.toNat) (ha : ¬ socket.accepts requestedSize) :
    increaseLoop socket cur requestedSize = (none, [requestedSize]) := by
  have hstop : ¬ cur < (requestedSize + cur) / 2 := by
    rw [BitVec.lt_def, toNat_midpoint]
    have := requestedSize.isLt
    have := cur.isLt
    omega
  rw [increaseLoop_refused hcur ha, increaseLoop_of_not_lt hstop]

theorem not_grows_of_wrap (hcur : cur < requestedSize) (hlimit : limit < requestedSize)
    (hsum : 2 ^ 32 ≤ requestedSize.toNat + cur.toNat) : ¬ Grows cur limit requestedSize := by
  intro h
  have hrefused : ¬ (limited cur limit).accepts requestedSize := by
    simpa [limited, BitVec.lt_def] using hlimit
  have hret : (commIncreaseBufferTo (limited cur limit) requestedSize).1 = cur := by
    simp only [commIncreaseBufferTo, commGetBufferSize, limited, Option.getD_some] at hrefused ⊢
    rw [increaseLoop_of_wrap hcur hsum hrefused]
    rfl
  exact absurd h.cur_lt (by rw [hret]; exact BitVec.lt_irrefl cur)

/-- The search finds at least half of the possible growth exactly when the sum of the size
asked for and the current one does not wrap. -/
theorem grows_iff (hcur : cur < limit) (hlimit : limit < requestedSize) :
    Grows cur limit requestedSize ↔ requestedSize.toNat + cur.toNat < 2 ^ 32 := by
  have hlt : cur < requestedSize := BitVec.lt_trans hcur hlimit
  constructor
  · intro h
    by_contra hsum
    exact not_grows_of_wrap hlt hlimit (Nat.le_of_not_lt hsum) h
  · intro hsum
    have hhalf : (limit.toNat - cur.toNat + 1) / 2 ≤ requestedSize.toNat - cur.toNat := by
      rw [BitVec.lt_def] at hcur hlimit
      omega
    obtain ⟨size, hmem, hsome, hle, hsize⟩ := exists_accepted hcur hsum hhalf
    have hret : (commIncreaseBufferTo (limited cur limit) requestedSize).1 = size := by
      change (increaseLoop (limited cur limit) cur requestedSize).1.getD cur = size
      rw [hsome, Option.getD_some]
    constructor
    · rw [hret]
      exact hmem
    · rw [hret]
      exact (lt_of_mem_tried hmem).1
    · rwa [hret]
    · rwa [hret]
    · exact fun accepts => ⟨isChain_tried _ _ _, fun _ h => (lt_of_mem_tried h).1⟩

/-- A buffer of 200 bytes, of which 1000 are asked for and 300 are possible. -/
theorem grows_iff_small :
    Grows 200 300 1000 ↔ (1000 : BitVec 32).toNat + (200 : BitVec 32).toNat < 2 ^ 32 :=
  grows_iff (by decide) (by decide)

/-- The largest size is asked for: the search is over after one attempt. -/
theorem not_grows_largest :
    ¬ ∀ cur limit requestedSize : BitVec 32, cur < limit → limit < requestedSize →
      Grows cur limit requestedSize := by
  intro hall
  exact not_grows_of_wrap (by decide) (by decide) (by decide)
    (hall 212992 425984 0xFFFFFFFF (by decide) (by decide))

end H264Cast.SocketBuffer
