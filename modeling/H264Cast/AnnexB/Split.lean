import H264Cast.AnnexB.Units

/-! # The split loop

The `while` loop of the clients and the servers: from the start code of the current
unit it scans for the next one, handles the range between the two and goes on from
there. The scan starts four bytes on, but with the length counted from the start code
itself, so it looks for start codes up to the end of that length and reads three bytes
more.
-/

namespace H264Cast

/-- The size of the buffer. -/
def maxBuf : ℕ := 1024 * 200

/-- The variables of the loop: the current start code, the bytes and the number of ranges
handled so far, and the state the body works on. -/
structure Split (σ : Type*) where
  startCode : ℕ
  sendLen : ℕ
  sendCount : ℕ
  out : σ

variable {σ : Type*} {buf : Memory Byte} {n : ℕ} {body : ℕ → ℕ → σ → Option σ}
  {c c' : Split σ} {out : σ} {endCode s : ℕ}

/-- The scan in the guard of the loop. -/
def nextStartCode (buf : Memory Byte) (n : ℕ) (c : Split σ) : Option ℕ :=
  findNalStartCode buf (c.startCode + 4) (n - c.sendLen)

/-- The loop variables after a range was handled. -/
def Split.advance (c : Split σ) (endCode : ℕ) (out : σ) : Split σ where
  startCode := endCode
  sendLen := c.sendLen + (endCode - c.startCode)
  sendCount := c.sendCount + 1
  out := out

theorem nextStartCode_bounds (h : nextStartCode buf n c = some endCode) :
    c.startCode + 4 ≤ endCode ∧ endCode + c.sendLen < c.startCode + n ∧
      StartCodeAt buf endCode := by
  obtain ⟨hle, hlt, hs, -⟩ := findNalStartCode_eq_some.mp h
  exact ⟨hle, by omega, hs⟩

/-- The loop. The body may leave it, and then there is no result. -/
def splitLoop (body : ℕ → ℕ → σ → Option σ) (buf : Memory Byte) (n : ℕ) (c : Split σ) :
    Option (Split σ) :=
  match _h : nextStartCode buf n c with
  | none => some c
  | some endCode =>
    match body c.startCode endCode c.out with
    | none => none
    | some out => splitLoop body buf n (c.advance endCode out)
termination_by n - c.sendLen
decreasing_by
  have hb := nextStartCode_bounds _h
  simp only [Split.advance]
  omega

theorem splitLoop_none (h : nextStartCode buf n c = none) :
    splitLoop body buf n c = some c := by
  rw [splitLoop]
  split <;> simp_all

theorem splitLoop_some (h : nextStartCode buf n c = some endCode) :
    splitLoop body buf n c =
      (body c.startCode endCode c.out).bind fun out =>
        splitLoop body buf n (c.advance endCode out) := by
  rw [splitLoop]
  split
  · simp_all
  · rename_i e he
    obtain rfl : e = endCode := Option.some.inj (he.symm.trans h)
    cases body c.startCode e c.out <;> rfl

/-- What the body keeps from range to range holds when the loop ends. -/
theorem splitLoop_invariant {P : Split σ → Prop} (h : splitLoop body buf n c = some c')
    (hc : P c)
    (hbody : ∀ c endCode out, P c → nextStartCode buf n c = some endCode →
      body c.startCode endCode c.out = some out → P (c.advance endCode out)) :
    P c' ∧ nextStartCode buf n c' = none := by
  induction c using splitLoop.induct body buf n with
  | case1 c hnone =>
    rw [splitLoop_none hnone] at h
    obtain rfl := Option.some.inj h
    exact ⟨hc, hnone⟩
  | case2 c endCode hsome hfail =>
    simp [splitLoop_some hsome, hfail] at h
  | case3 c endCode hsome out hout ih =>
    rw [splitLoop_some hsome, hout] at h
    exact ih h (hbody c endCode out hc hsome hout)

/-- Two loops do the same when their scans and bodies agree where an invariant holds. -/
theorem splitLoop_congr {buf' : Memory Byte} {body' : ℕ → ℕ → σ → Option σ} {P : Split σ → Prop}
    (hc : P c) (hscan : ∀ c, P c → nextStartCode buf n c = nextStartCode buf' n c)
    (hbody : ∀ c endCode, P c → nextStartCode buf n c = some endCode →
      body c.startCode endCode c.out = body' c.startCode endCode c.out)
    (hstep : ∀ c endCode out, P c → nextStartCode buf n c = some endCode →
      body c.startCode endCode c.out = some out → P (c.advance endCode out)) :
    splitLoop body buf n c = splitLoop body' buf' n c := by
  induction c using splitLoop.induct body buf n with
  | case1 c hnone => rw [splitLoop_none hnone, splitLoop_none ((hscan c hc).symm.trans hnone)]
  | case2 c endCode hsome hfail =>
    rw [splitLoop_some hsome, splitLoop_some ((hscan c hc).symm.trans hsome),
      ← hbody c endCode hc hsome, hfail]
    rfl
  | case3 c endCode hsome out hout ih =>
    rw [splitLoop_some hsome, splitLoop_some ((hscan c hc).symm.trans hsome),
      ← hbody c endCode hc hsome, hout]
    exact ih (hstep c endCode out hc hsome hout)

/-- A loop whose body never leaves it ends. -/
theorem splitLoop_isSome {P : Split σ → Prop} (hc : P c)
    (hbody : ∀ c endCode, P c → nextStartCode buf n c = some endCode →
      ∃ out, body c.startCode endCode c.out = some out ∧ P (c.advance endCode out)) :
    ∃ c', splitLoop body buf n c = some c' := by
  induction c using splitLoop.induct body buf n with
  | case1 c hnone => exact ⟨c, splitLoop_none hnone⟩
  | case2 c endCode hsome hfail =>
    obtain ⟨out, hout, -⟩ := hbody c endCode hc hsome
    simp [hfail] at hout
  | case3 c endCode hsome out hout ih =>
    obtain ⟨out', hout', hP⟩ := hbody c endCode hc hsome
    obtain rfl : out = out' := Option.some.inj (hout.symm.trans hout')
    rw [splitLoop_some hsome, hout]
    exact ih hP

end H264Cast
