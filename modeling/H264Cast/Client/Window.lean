import H264Cast.AnnexB.Scan
import H264Cast.Client.Loop

/-! # The window of the split loop

The scans of the split loop and the range it leaves for the tail, against the number of
valid bytes in the buffer. The window of a scan is as long as the valid bytes not sent yet,
but it begins at the current start code and moves with the offset of the first one; the
scan looks at the three bytes behind its last place as well.
-/

namespace H264Cast

variable {σ : Type*} {buf : Memory Byte} {n k i endCode : ℕ}

/-- The cells that the scan in the guard inspects. -/
def Split.inspected (buf : Memory Byte) (n : ℕ) (c : Split σ) : List ℕ :=
  (Inspect.findNalStartCode (c.startCode + 4) (n - c.sendLen)).inspected buf

/-- The variables of the loop alone. -/
def Split.forget (c : Split σ) : Split Unit := ⟨c.startCode, c.sendLen, c.sendCount, ()⟩

/-- The states in which the loop scans, over a buffer with the given number of valid bytes. -/
def scans (buf : Memory Byte) (n : ℕ) : TransitionSystem (Split Unit) where
  init c := ∃ startCode, findNalStartCode buf 0 maxBuf = some startCode ∧ c = ⟨startCode, 0, 0, ()⟩
  step c c' := ∃ endCode, nextStartCode buf n c = some endCode ∧ c' = c.advance endCode ()

/-- The loop leaves the rest for the tail, unless it is retained in a full buffer. -/
def Split.TailSent (n : ℕ) (c : Split σ) : Prop := ¬ (0 < c.sendCount ∧ n = maxBuf)

/-- Every scan of the loop inspects valid bytes only, and the tail consists of them. -/
structure InWindow (buf : Memory Byte) (n : ℕ) : Prop where
  scan : ∀ c, (scans buf n).Reachable c → ∀ i ∈ c.inspected buf n, i < n
  tail : ∀ c, (scans buf n).Reachable c → nextStartCode buf n c = none → c.TailSent n →
    c.startCode + (n - c.sendLen) ≤ n

/-- The state in which the loop ends is one in which it scans. -/
theorem splitLoop_reachable {body : ℕ → ℕ → σ → Option σ} {c c' : Split σ}
    (h : splitLoop body buf n c = some c') (hc : (scans buf n).Reachable c.forget) :
    (scans buf n).Reachable c'.forget ∧ nextStartCode buf n c' = none :=
  splitLoop_invariant (P := fun c => (scans buf n).Reachable c.forget) h hc
    fun _ endCode _ hr hnext _ => hr.step ⟨endCode, hnext, rfl⟩

/-- The tail of an iteration of a client comes from a state in which its loop scans. -/
theorem Client.iterate_scans {T : Transport σ} {c c' : Client σ} {startCode : ℕ}
    (h : c.iterate T = some c') (hs : findNalStartCode c.fread.buf 0 maxBuf = some startCode) :
    ∃ l : Split σ, (scans c.fread.buf c.filled).Reachable l.forget ∧
      nextStartCode c.fread.buf c.filled l = none ∧
      (l.TailSent c.filled → ∃ out,
        T.tail (c.fread.buf.shift l.startCode) (c.filled - l.sendLen) l.out = some out) := by
  rcases iterate_cases h with ⟨hnone, -⟩ | ⟨first, l, hfirst, hl, hcase⟩
  · simp [hs] at hnone
  obtain ⟨hr, hnone⟩ := splitLoop_reachable hl (.init ⟨first, hfirst, rfl⟩)
  refine ⟨l, hr, hnone, fun htail => ?_⟩
  rcases hcase with ⟨hcount, hfull, -⟩ | ⟨-, out, hsend, -⟩
  · exact absurd ⟨hcount, hfull⟩ htail
  · exact ⟨out, hsend⟩

/-- The bytes handled are those between the first start code and the current one. -/
theorem scans_invariant {c : Split Unit} (hr : (scans buf n).Reachable c) (hn : 1 ≤ n)
    (hk : findNalStartCode buf 0 maxBuf = some k) :
    c.startCode = k + c.sendLen ∧ c.sendLen < n := by
  refine hr.invariant (P := fun c => c.startCode = k + c.sendLen ∧ c.sendLen < n) ?_ ?_
  · rintro _ ⟨startCode, hs, rfl⟩
    obtain rfl : k = startCode := Option.some.inj (hk.symm.trans hs)
    exact ⟨rfl, hn⟩
  · rintro c _ ⟨hstart, hlen⟩ ⟨endCode, hnext, rfl⟩
    obtain ⟨hle, hlt, -⟩ := nextStartCode_bounds hnext
    simp only [Split.advance]
    omega

/-- The loop ends. -/
theorem exists_scans_end (hk : findNalStartCode buf 0 maxBuf = some k) :
    ∃ c, (scans buf n).Reachable c ∧ nextStartCode buf n c = none := by
  obtain ⟨c', hc'⟩ : ∃ c', splitLoop (fun _ _ _ => some ()) buf n ⟨k, 0, 0, ()⟩ = some c' :=
    splitLoop_isSome (P := fun _ => True) trivial fun _ _ _ _ => ⟨(), rfl, trivial⟩
  exact ⟨_, splitLoop_reachable hc' (.init ⟨k, hk, rfl⟩)⟩

theorem mem_inspected_of_startCodeAt (hs : StartCodeAt buf i) :
    i + 3 ∈ (Inspect.startCodeAt i).inspected buf := by
  refine Inspect.mem_inspected_startCodeAt.mpr ⟨by omega, by omega, fun j _ _ => ?_⟩
  obtain rfl | rfl | rfl : j = i ∨ j = i + 1 ∨ j = i + 2 := by omega
  · exact hs.1
  · exact hs.2.1
  · exact hs.2.2.1

/-- In the window every start code found lies inside the valid bytes. -/
theorem InWindow.startCode_lt (hw : InWindow buf n) {c : Split Unit}
    (hr : (scans buf n).Reachable c) :
    (c.sendLen = 0 ∧ c.sendCount = 0) ∨ (StartCodeAt buf c.startCode ∧ c.startCode + 3 < n) := by
  cases hr with
  | init h =>
    obtain ⟨startCode, -, rfl⟩ := h
    exact Or.inl ⟨rfl, rfl⟩
  | @step c _ hr h =>
    obtain ⟨endCode, hnext, rfl⟩ := h
    obtain ⟨hle, hlt, hs, hfirst⟩ := findNalStartCode_eq_some.mp hnext
    refine Or.inr ⟨hs, hw.scan c hr _ ?_⟩
    exact Inspect.mem_inspected_findNalStartCode.mpr
      ⟨endCode, hle, hlt, hfirst, mem_inspected_of_startCodeAt hs⟩

/-- In the window the first start code is at the front of the buffer, and the last valid
byte is not zero. -/
theorem InWindow.front (hw : InWindow buf n) (hn : 1 ≤ n)
    (hk : findNalStartCode buf 0 maxBuf = some k) : k = 0 ∧ (n ≤ 4 ∨ buf (n - 1) ≠ 0x00) := by
  obtain ⟨c, hr, hnone⟩ := exists_scans_end (n := n) hk
  obtain ⟨hstart, hlen⟩ := scans_invariant hr hn hk
  -- The last scan looks at the places up to the one `n` bytes behind the first start code.
  by_cases hwide : 4 < n - c.sendLen
  · have hinspected (j : ℕ) (hj : j ∈ (Inspect.startCodeAt (k + n - 1)).inspected buf) : j < n := by
      refine hw.scan c hr j (Inspect.mem_inspected_findNalStartCode.mpr
        ⟨k + n - 1, by omega, by omega, fun q hq hlt => ?_, hj⟩)
      exact findNalStartCode_eq_none.mp hnone q hq (by omega)
    have hfirst : k + n - 1 < n := hinspected _
      (Inspect.mem_inspected_startCodeAt.mpr ⟨by omega, by omega, fun j _ _ => by omega⟩)
    obtain rfl : k = 0 := by omega
    refine ⟨rfl, Or.inr fun hzero => ?_⟩
    have hnext : n < n := hinspected n
      (Inspect.mem_inspected_startCodeAt.mpr ⟨by omega, by omega, fun j _ _ => by
        obtain rfl : j = n - 1 := by omega
        exact hzero⟩)
    exact absurd hnext (Nat.lt_irrefl n)
  · rcases hw.startCode_lt hr with ⟨hzero, hcount⟩ | ⟨hs, hlt⟩
    · have htail := hw.tail c hr hnone (by simp [Split.TailSent, hcount])
      omega
    · obtain rfl : k = 0 := by omega
      refine ⟨rfl, Or.inr ?_⟩
      rw [show n - 1 = c.startCode + 3 by omega, hs.2.2.2]
      decide

theorem inWindow_of_front (hn : 1 ≤ n) (hk : findNalStartCode buf 0 maxBuf = some 0)
    (hlast : n ≤ 4 ∨ buf (n - 1) ≠ 0x00) : InWindow buf n := by
  constructor
  case scan =>
    intro c hr j hj
    obtain ⟨hstart, hlen⟩ := scans_invariant hr hn hk
    obtain ⟨i, hi, hlt, -, hj⟩ := Inspect.mem_inspected_findNalStartCode.mp hj
    obtain ⟨hij, -, hzero⟩ := Inspect.mem_inspected_startCodeAt.mp hj
    by_contra hge
    have hend := hzero (n - 1) (by omega) (by omega)
    rcases hlast with hn' | hne
    · omega
    · exact hne hend
  case tail =>
    intro c hr _ _
    obtain ⟨hstart, hlen⟩ := scans_invariant hr hn hk
    omega

theorem inWindow_of_none (hk : findNalStartCode buf 0 maxBuf = none) : InWindow buf n := by
  have hempty (c : Split Unit) : ¬ (scans buf n).Reachable c := by
    intro hr
    refine hr.invariant (P := fun _ => False) ?_ fun _ _ h _ => h
    rintro _ ⟨startCode, hs, -⟩
    simp [hk] at hs
  exact ⟨fun c hr => absurd hr (hempty c), fun c hr => absurd hr (hempty c)⟩

/-- The split loop stays inside the valid bytes exactly when no start code is found at all,
or when one is at the front of the buffer and the last valid byte is not zero. -/
theorem inWindow_iff (hn : 1 ≤ n) :
    InWindow buf n ↔ (∀ q, q + 4 < maxBuf → ¬ StartCodeAt buf q) ∨
      (StartCodeAt buf 0 ∧ (n ≤ 4 ∨ buf (n - 1) ≠ 0x00)) := by
  have hnone : findNalStartCode buf 0 maxBuf = none ↔
      ∀ q, q + 4 < maxBuf → ¬ StartCodeAt buf q := by
    rw [findNalStartCode_eq_none, Nat.zero_add]
    exact ⟨fun h q => h q (Nat.zero_le q), fun h q _ => h q⟩
  rw [← hnone]
  constructor
  · intro hw
    cases hk : findNalStartCode buf 0 maxBuf with
    | none => exact Or.inl rfl
    | some k =>
      obtain ⟨rfl, hlast⟩ := hw.front hn hk
      exact Or.inr ⟨(findNalStartCode_eq_some.mp hk).2.2.1, hlast⟩
  · rintro (hk | ⟨hs, hlast⟩)
    · exact inWindow_of_none hk
    · exact inWindow_of_front hn (findNalStartCode_self hs (by decide)) hlast

/-- One unit of one byte at the front of the buffer. -/
theorem inWindow_iff_unit :
    let buf : Memory Byte := Memory.write (fun _ => 0x11) 0 (startCode ++ [0x65])
    InWindow buf 5 ↔ (∀ q, q + 4 < maxBuf → ¬ StartCodeAt buf q) ∨
      (StartCodeAt buf 0 ∧ (5 ≤ 4 ∨ buf (5 - 1) ≠ 0x00)) :=
  inWindow_iff (by decide)

/-- A zero byte before the first start code moves the window by one. -/
theorem not_inWindow_leading_zero :
    ¬ ∀ (buf : Memory Byte) (n : ℕ), 1 ≤ n → n ≤ maxBuf → InWindow buf n := by
  intro hall
  let buf : Memory Byte := Memory.write (fun _ => 0x11) 0 (0x00 :: startCode ++ [0x65])
  have hk : findNalStartCode buf 0 maxBuf = some 1 :=
    findNalStartCode_of_lt (by decide) (by decide) (by decide) (by decide)
  have h := (hall buf 6 (by decide) (by decide)).front (by decide) hk
  exact absurd h.1 (by decide)

end H264Cast
