import Mathlib.Data.Rat.Floor

/-!
# The cache of local time offsets

`runtime/JSDateMath.cpp:127-188` and `LocalTimeOffsetCache` of `runtime/VM.h`. Times are the exact
values of doubles; their sums and quotients are rounded. The cached interval grows by up to a month,
on the strength of one probe at its new end, which is right as long as the sum is not rounded to
more than a month.
-/

namespace JavaScriptCore.Runtime.JSDateMath

/-! ## Rounding -/

def twoPow : Int → ℚ
  | .ofNat n => 2 ^ n
  | .negSucc n => 1 / 2 ^ (n + 1)

/-- The exponent of the highest bit of a positive number. -/
def binaryExponent (x : ℚ) : Int :=
  let e : Int := x.num.natAbs.log2 - x.den.log2
  if twoPow e ≤ x then e else e - 1

/-- The double next to a number, the even one of two. -/
def roundToDouble (x : ℚ) : ℚ :=
  let ulp := twoPow (max (binaryExponent |x| - 52) (-1074))
  let down := ⌊x / ulp⌋
  let rest := x / ulp - down
  if rest < 1 / 2 ∨ rest = 1 / 2 ∧ down % 2 = 0 then down * ulp else (down + 1) * ulp

/-! ## The cache -/

/-- `WTF::TimeType`. -/
inductive TimeType where
  | utcTime
  | localTime
  deriving DecidableEq, Repr

structure LocalTimeOffset where
  isDST : Bool
  offset : Int
  deriving DecidableEq, Repr

structure LocalTimeOffsetCache where
  offset : LocalTimeOffset
  start : ℚ
  stop : ℚ
  increment : ℚ
  timeType : TimeType
  deriving DecidableEq, Repr

/-- A new cache holds no time. -/
def emptyCache : LocalTimeOffsetCache := ⟨⟨false, 0⟩, 0, -1, 0, .utcTime⟩

def msPerMonth : ℚ := 2592000000

/-- `newEnd`. -/
def LocalTimeOffsetCache.newStop (cache : LocalTimeOffsetCache) : ℚ :=
  roundToDouble (cache.stop + cache.increment)

variable (calculate : ℚ → TimeType → LocalTimeOffset)

/-- The offset, and the cache afterwards; `calculate` is `calculateLocalTimeOffset`. -/
def localTimeOffset (cache : LocalTimeOffsetCache) (ms : ℚ) (inputTimeType : TimeType) :
    LocalTimeOffset × LocalTimeOffsetCache :=
  let offset := calculate ms inputTimeType
  let fresh := (offset, ⟨offset, ms, ms, msPerMonth, inputTimeType⟩)
  if cache.timeType = inputTimeType ∧ cache.start ≤ ms then
    if ms ≤ cache.stop then (cache.offset, cache)
    else if ms ≤ cache.newStop then
      let endOffset := calculate cache.newStop inputTimeType
      if cache.offset = endOffset then
        (endOffset, { cache with stop := cache.newStop, increment := msPerMonth })
      else if offset = endOffset then
        (offset, ⟨offset, ms, cache.newStop, msPerMonth, cache.timeType⟩)
      else
        (offset, { cache with
          offset, stop := ms, increment := roundToDouble (cache.increment / 3) })
    else fresh
  else fresh

/-- The offsets for a sequence of times, and the cache afterwards. -/
def run : LocalTimeOffsetCache → List (ℚ × TimeType) → List LocalTimeOffset × LocalTimeOffsetCache
  | cache, [] => ([], cache)
  | cache, (ms, type) :: rest =>
    let (offset, cache) := localTimeOffset calculate cache ms type
    (run cache rest).map (offset :: ·) id

/-- No interval of a month has two changes in it. -/
def OneChangeAMonth : Prop :=
  ∀ type x y z, x ≤ y → y ≤ z → z ≤ x + msPerMonth →
    calculate x type = calculate y type ∨ calculate y type = calculate z type

/-- The offset at the new end is asked for. -/
def LocalTimeOffsetCache.Probes (cache : LocalTimeOffsetCache) (ms : ℚ) (type : TimeType) : Prop :=
  (cache.timeType = type ∧ cache.start ≤ ms) ∧ ¬ms ≤ cache.stop ∧ ms ≤ cache.newStop

/-- No new end that is asked for is rounded to more than a month. -/
def RoundsDown : LocalTimeOffsetCache → List (ℚ × TimeType) → Prop
  | _, [] => True
  | cache, (ms, type) :: rest =>
    (cache.Probes ms type → cache.newStop ≤ cache.stop + msPerMonth) ∧
      RoundsDown (localTimeOffset calculate cache ms type).2 rest

/-- Nothing is cached, or the offset of every time in the interval. -/
def Valid (cache : LocalTimeOffsetCache) : Prop :=
  cache = emptyCache ∨ cache.start ≤ cache.stop ∧
    ∀ ms, cache.start ≤ ms → ms ≤ cache.stop → calculate ms cache.timeType = cache.offset

variable {calculate} {cache : LocalTimeOffsetCache}

theorem emptyCache_newStop : emptyCache.newStop = emptyCache.stop := by decide +kernel

theorem localTimeOffset_spec (hc : OneChangeAMonth calculate) (h : Valid calculate cache)
    {ms : ℚ} {type : TimeType}
    (hr : cache.Probes ms type → cache.newStop ≤ cache.stop + msPerMonth) :
    (localTimeOffset calculate cache ms type).1 = calculate ms type ∧
      Valid calculate (localTimeOffset calculate cache ms type).2 := by
  have hf : Valid calculate ⟨calculate ms type, ms, ms, msPerMonth, type⟩ :=
    .inr ⟨le_refl _, fun t ht ht' => by rw [le_antisymm ht' ht]⟩
  simp only [localTimeOffset]
  split
  swap
  · exact ⟨rfl, hf⟩
  rename_i hs
  obtain ⟨rfl, hs⟩ := hs
  rcases h with rfl | ⟨hne, h⟩
  · -- nothing is below the end of the empty interval
    have hms : ¬ms ≤ emptyCache.stop := fun hms => absurd (hs.trans hms) (by decide +kernel)
    rw [if_neg hms, emptyCache_newStop, if_neg hms]
    exact ⟨rfl, hf⟩
  split
  · rename_i hle
    exact ⟨(h ms hs hle).symm, .inr ⟨hne, h⟩⟩
  rename_i hgt
  split
  swap
  · exact ⟨rfl, hf⟩
  rename_i hle
  replace hr := hr ⟨⟨rfl, hs⟩, hgt, hle⟩
  replace hgt := (not_le.mp hgt).le
  have hend := h _ hne (le_refl _)
  split
  · -- the same offset at both ends
    rename_i heq
    have hsame : ∀ t, cache.stop ≤ t → t ≤ cache.newStop →
        calculate t cache.timeType = cache.offset := by
      intro t ht ht'
      rcases hc cache.timeType _ t _ ht ht' hr with hx | hx
      · rw [← hx, hend]
      · rw [hx, heq]
    refine ⟨heq ▸ (hsame ms hgt hle).symm, .inr ⟨hs.trans hle, fun t ht ht' => ?_⟩⟩
    rcases le_total t cache.stop with hts | hts
    · exact h t ht hts
    · exact hsame t hts ht'
  rename_i hne'
  split
  · rename_i heq
    refine ⟨rfl, .inr ⟨hle, fun t ht ht' => ?_⟩⟩
    rcases hc cache.timeType ms t _ ht ht' (hr.trans (by gcongr)) with hx | hx
    · exact hx.symm
    · exact hx.trans heq.symm
  · rename_i hmn
    have hms : calculate ms cache.timeType = cache.offset :=
      ((hc cache.timeType _ ms _ hgt hle hr).resolve_right hmn).symm.trans hend
    refine ⟨rfl, .inr ⟨hs, fun t ht ht' => ?_⟩⟩
    rcases le_total t cache.stop with hts | hts
    · exact (h t ht hts).trans hms.symm
    · rcases hc cache.timeType _ t ms hts ht' (hle.trans hr) with hx | hx
      · rw [← hx, hend, hms]
      · exact hx

/-- Every time gets the offset that is calculated for it, in any order and of either type, and the
offset in the cache is that of every time in its interval. -/
theorem run_eq (hc : OneChangeAMonth calculate) (times : List (ℚ × TimeType))
    (hr : RoundsDown calculate emptyCache times) :
    (run calculate emptyCache times).1 = times.map (fun time => calculate time.1 time.2) ∧
      Valid calculate (run calculate emptyCache times).2 := by
  have hv : Valid calculate emptyCache := .inl rfl
  generalize emptyCache = cache at hv hr
  induction times generalizing cache with
  | nil => exact ⟨rfl, hv⟩
  | cons time times ih =>
    obtain ⟨ho, hv⟩ := localTimeOffset_spec hc hv hr.1
    obtain ⟨hos, hv⟩ := ih _ hv hr.2
    exact ⟨congrArg₂ List.cons ho hos, hv⟩

/-- An hour more from one time to another. -/
def summer (first last : ℚ) (ms : ℚ) (_ : TimeType) : LocalTimeOffset :=
  if first ≤ ms ∧ ms < last then ⟨true, 3600000⟩ else ⟨false, 0⟩

theorem oneChangeAMonth_summer {first last : ℚ} (h : first + msPerMonth ≤ last) :
    OneChangeAMonth (summer first last) := by
  intro type x y z hxy hyz hzx
  simp only [summer]
  grind

/-- Two queries of a summer of a year. -/
theorem run_eq_summer :
    (run (summer 0 31536000000) emptyCache [(5, .localTime), (1000, .localTime)]).1 =
      [⟨true, 3600000⟩, ⟨true, 3600000⟩] :=
  (run_eq (oneChangeAMonth_summer (by decide +kernel)) [(5, .localTime), (1000, .localTime)]
    ⟨fun _ => by decide +kernel, fun _ => by decide +kernel, trivial⟩).1.trans (by decide +kernel)

/-- A summer of a month is not seen: the sum of a time just before it and a month is rounded up to
its end. -/
theorem run_misses_summer :
    let zone := summer 1000 2592001000
    OneChangeAMonth zone ∧
      (run zone emptyCache [(1000 - 1 / 2 ^ 43, .localTime), (2000, .localTime)]).1 =
        [⟨false, 0⟩, ⟨false, 0⟩] ∧
      zone 2000 .localTime = ⟨true, 3600000⟩ :=
  ⟨oneChangeAMonth_summer (by decide +kernel), by decide +kernel, by decide +kernel⟩

end JavaScriptCore.Runtime.JSDateMath
