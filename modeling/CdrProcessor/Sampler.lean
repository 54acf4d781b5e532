import CdrProcessor.Basic
import Mathlib.Algebra.BigOperators.Group.List.Basic
import Mathlib.Algebra.Order.Field.Rat
import Mathlib.Data.Int.Log
import Mathlib.Data.Rat.Floor

/-!
The sampler's side, in Python: the rows kept of the counters, and the series read off them.
The numbers of the rows are exact here, doubles only where a series is thinned.  A rate is taken
against a row `RATE_LAG` seconds back, which a pointer that only moves forward finds; it is set
against a search made anew for each row.
-/

namespace CdrProcessor.Sampler

/-! ## constants.py -/

def RETENTION_DAYS : Int := 7
def MAX_POINTS : Nat := 600
def RATE_LAG : Int := 60

/-! ## db.py -/

inductive Column where
  | keys | records | mocCnt | mtcCnt | smsMoCnt | smsMtCnt | dataCnt | noansCnt | busyCnt
  | failedCnt | mocDur | mtcDur | dataDur | dataRx | dataTx
  deriving DecidableEq, Repr

/-- A row of the table: `ts` is its primary key. -/
structure Row where
  ts : Int
  column : Column → Int

def COUNTERS : List (Column × Text) :=
  [(.records, "records".toList), (.mocCnt, "moc-cnt".toList), (.mtcCnt, "mtc-cnt".toList),
    (.smsMoCnt, "sms-mo-cnt".toList), (.smsMtCnt, "sms-mt-cnt".toList),
    (.dataCnt, "data-cnt".toList), (.noansCnt, "noans-cnt".toList),
    (.busyCnt, "busy-cnt".toList), (.failedCnt, "failed-cnt".toList),
    (.mocDur, "moc-dur".toList), (.mtcDur, "mtc-dur".toList), (.dataDur, "data-dur".toList),
    (.dataRx, "data-rx".toList), (.dataTx, "data-tx".toList)]

def SUMS : List (Text × List Column) :=
  [("calls".toList, [.mocCnt, .mtcCnt]), ("messages".toList, [.smsMoCnt, .smsMtCnt]),
    ("data-vol".toList, [.dataRx, .dataTx]),
    ("failures".toList, [.noansCnt, .busyCnt, .failedCnt])]

def RATIOS : List (Text × List Column × List Column) :=
  [("fail-share".toList, [.noansCnt, .busyCnt, .failedCnt], [.records]),
    ("avg-moc-dur".toList, [.mocDur], [.mocCnt]), ("avg-mtc-dur".toList, [.mtcDur], [.mtcCnt]),
    ("avg-data-dur".toList, [.dataDur], [.dataCnt])]

def WINDOWS : List (Text × Int) :=
  [("15m".toList, 900), ("1h".toList, 3600), ("6h".toList, 21600), ("24h".toList, 86400)]

def RATE_SUFFIX : Text := ":rate".toList

def metrics : List Text :=
  let names := COUNTERS.map Prod.snd ++ "keys".toList :: (SUMS.map Prod.fst ++ RATIOS.map Prod.fst)
  names ++ (names.filter (· ∉ RATIOS.map Prod.fst)).map (· ++ RATE_SUFFIX)

inductive Raised where
  | keyError | valueError
  deriving DecidableEq, Repr

/-- `Samples.rows`, off the table in the order of its key. -/
def samplesRows (table : List Row) (since : Int) : List Row :=
  let inside := table.filter (since ≤ ·.ts)
  match (table.filter (·.ts < since)).getLast? with
  | some before => before :: inside
  | none => inside

def sum (row : Row) (columns : List Column) : ℚ := (columns.map fun c => (row.column c : ℚ)).sum

/-- One metric off one row; a ratio over nothing is no number. -/
def value (row : Row) (metric : Text) : Except Raised (Option ℚ) :=
  if metric = "keys".toList then .ok (some (row.column .keys))
  else
    match COUNTERS.find? (·.2 = metric) with
    | some (column, _) => .ok (some (row.column column))
    | none =>
      match SUMS.lookup metric with
      | some columns => .ok (some (sum row columns))
      | none =>
        match RATIOS.lookup metric with
        | some (top, bottom) =>
          let divisor := sum row bottom
          .ok (if divisor = 0 then none else some (sum row top / divisor))
        | none => .error .keyError

abbrev Point := Int × Option ℚ

/-- The nearest whole number, of two the even one. -/
def roundHalfEven (q : ℚ) : Int :=
  let rest := q - ⌊q⌋
  if rest < 1 / 2 ∨ rest = 1 / 2 ∧ ⌊q⌋ % 2 = 0 then ⌊q⌋ else ⌊q⌋ + 1

/-- The double nearest to a positive number, of the ones that are normal: 53 digits. -/
def nearestDouble (q : ℚ) : ℚ :=
  let ulp := (2 : ℚ) ^ (Int.log 2 q - 52)
  roundHalfEven (q / ulp) * ulp

/-- The place of the point that is kept of a bucket, off a step that is a double. -/
def bucketEnd (count index : Nat) : Nat :=
  let step := nearestDouble (count / MAX_POINTS)
  min (count - 1) (⌊nearestDouble ((index + 1 : Nat) * step)⌋.toNat - 1)

-- where the step was rounded down, the bucket ends one point early
example : bucketEnd 1200 599 = 1199 ∧ bucketEnd 603 599 = 601 := by decide +kernel

/-- Keeps the last point of each bucket. -/
def downsample (points : List Point) : List Point :=
  if points.length ≤ MAX_POINTS then points
  else (List.range MAX_POINTS).filterMap fun index => points[bucketEnd points.length index]?

/-- The `while` of `series`; the baseline stays short of `index`, which is fuel enough. -/
def advance (rows : List Row) (index : Nat) (bound : Int) : Nat → Nat → Nat
  | 0, baseline => baseline
  | fuel + 1, baseline =>
    match rows[baseline + 1]? with
    | some next =>
      if baseline + 1 < index ∧ next.ts ≤ bound then advance rows index bound fuel (baseline + 1)
      else baseline
    | none => baseline

/-- The `for` of `series`, from a row on: `index` is its place in `rows`. -/
def pointsFrom (rows : List Row) (since : Int) (rate : Bool) (name : Text) :
    Nat → Nat → List Row → Except Raised (List Point)
  | _, _, [] => .ok []
  | index, baseline, row :: rest =>
    if row.ts < since then pointsFrom rows since rate name (index + 1) baseline rest
    else if rate = false then do
      let now ← value row name
      let points ← pointsFrom rows since rate name (index + 1) baseline rest
      .ok ((row.ts, now) :: points)
    else
      let baseline := advance rows index (row.ts - RATE_LAG) index baseline
      match rows[baseline]? with
      | none => .error .keyError -- an index past the list: never reached
      | some before => do
        let elapsed := row.ts - before.ts
        let now ← value row name
        let thenValue ← value before name
        let points ← pointsFrom rows since rate name (index + 1) baseline rest
        match now, thenValue with
        | some now, some thenValue =>
          if 0 < elapsed then .ok ((row.ts, some (max 0 (now - thenValue) / elapsed)) :: points)
          else .ok points
        | _, _ => .ok points

/-- The points of `series` before they are thinned. -/
def points (rows : List Row) (since : Int) (rate : Bool) (name : Text) :
    Except Raised (List Point) :=
  pointsFrom rows since rate name 0 0 rows

/-- What is sent: the points run from `since` to `upTo`. -/
structure Series where
  metric : Text
  window : Text
  seconds : Int
  since : Int
  upTo : Int
  points : List Point
  deriving DecidableEq

/-- `series`, the clock read twice. -/
def series (table : List Row) (now upTo : Int) (metric window : Text) : Except Raised Series := do
  let rate := RATE_SUFFIX.isSuffixOf metric
  let name := if rate then metric.take (metric.length - RATE_SUFFIX.length) else metric
  if rate ∧ name ∈ RATIOS.map Prod.fst then .error .valueError
  else if metric ∉ metrics then .error .keyError
  else
    let seconds := (WINDOWS.lookup window).getD (RETENTION_DAYS * 86400)
    let since := now - seconds
    let rows := samplesRows table (if rate then since - RATE_LAG else since)
    let found ← points rows since rate name
    .ok { metric, window, seconds, since, upTo, points := downsample found }

/-! ## A search for each row -/

/-- The latest row at least `RATE_LAG` seconds older, the first one where none is. -/
def against (rows : List Row) (row : Row) : Row :=
  (((rows.filter (·.ts ≤ row.ts - RATE_LAG)).getLast?).or rows.head?).getD row

/-- The metrics that are no ratio. -/
def Tallied (metric : Text) : Prop :=
  metric = "keys".toList ∨ metric ∈ COUNTERS.map Prod.snd ∨ metric ∈ SUMS.map Prod.fst

/-- The columns such a metric adds up. -/
def columnsOf (metric : Text) : List Column :=
  if metric = "keys".toList then [.keys]
  else
    match COUNTERS.find? (·.2 = metric) with
    | some (column, _) => [column]
    | none => (SUMS.lookup metric).getD []

/-- The change between two rows by the second, a drop being none. -/
def rateOf (metric : Text) (before row : Row) : ℚ :=
  max 0 (sum row (columnsOf metric) - sum before (columnsOf metric)) / ((row.ts - before.ts : Int) : ℚ)

/-- One point for each row of the window but the first row there is. -/
def expected (rows : List Row) (since : Int) (metric : Text) : List Point :=
  (rows.tail.filter (since ≤ ·.ts)).map fun row =>
    (row.ts, some (rateOf metric (against rows row) row))

theorem value_tallied {metric : Text} (h : Tallied metric) (row : Row) :
    value row metric = .ok (some (sum row (columnsOf metric))) := by
  unfold value columnsOf
  by_cases hkeys : metric = "keys".toList
  · rw [if_pos hkeys, if_pos hkeys, sum, List.map_singleton, List.sum_singleton]
  · rw [if_neg hkeys, if_neg hkeys]
    cases hfind : COUNTERS.find? (·.2 = metric) with
    | some pair =>
      dsimp only
      rw [sum, List.map_singleton, List.sum_singleton]
    | none =>
      have hcounter : metric ∉ COUNTERS.map Prod.snd := by
        rintro hmem
        obtain ⟨pair, hpair, rfl⟩ := List.mem_map.mp hmem
        exact absurd (decide_eq_true rfl) (List.find?_eq_none.mp hfind pair hpair)
      have hsum : metric ∈ SUMS.map Prod.fst := (h.resolve_left hkeys).resolve_left hcounter
      dsimp only
      cases hlookup : SUMS.lookup metric with
      | some columns => rfl
      | none =>
        obtain ⟨pair, hpair, rfl⟩ := List.mem_map.mp hsum
        have hne := List.lookup_eq_none_iff.mp hlookup pair hpair
        simp at hne

/-! ## The pointer -/

/-- Where the pointer stops: at a row old enough unless it did not move, and before one that
is not. -/
theorem advance_spec (rows : List Row) (index : Nat) (bound : Int) (fuel baseline : Nat)
    (hfuel : index ≤ baseline + fuel + 1) :
    (advance rows index bound fuel baseline = baseline ∨
      ∃ r, rows[advance rows index bound fuel baseline]? = some r ∧ r.ts ≤ bound) ∧
    ∀ r, rows[advance rows index bound fuel baseline + 1]? = some r →
      advance rows index bound fuel baseline + 1 < index → bound < r.ts := by
  induction fuel generalizing baseline with
  | zero =>
    refine ⟨.inl rfl, fun r hr hlt => ?_⟩
    rw [advance] at hlt
    omega
  | succ fuel ih =>
    rw [advance]
    cases hnext : rows[baseline + 1]? with
    | none =>
      refine ⟨.inl rfl, fun r hr _ => ?_⟩
      rw [hnext] at hr
      cases hr
    | some next =>
      dsimp only
      by_cases hgo : baseline + 1 < index ∧ next.ts ≤ bound
      · rw [if_pos hgo]
        obtain ⟨hstop, hbefore⟩ := ih (baseline + 1) (by omega)
        refine ⟨.inr ?_, hbefore⟩
        rcases hstop with hsame | hold
        · rw [hsame]
          exact ⟨next, hnext, hgo.2⟩
        · exact hold
      · rw [if_neg hgo]
        refine ⟨.inl rfl, fun r hr hlt => ?_⟩
        rw [hnext] at hr
        cases hr
        exact not_le.mp fun hle => hgo ⟨hlt, hle⟩

section

variable {rows : List Row}

/-- What the filter keeps is what stands up to the last row it keeps. -/
theorem filter_eq_take (hrows : rows.Pairwise (·.ts < ·.ts)) {bound : Int} {b : Nat} {row : Row}
    (hb : rows[b]? = some row) (hle : row.ts ≤ bound)
    (hnext : ∀ next, rows[b + 1]? = some next → bound < next.ts) :
    rows.filter (·.ts ≤ bound) = rows.take (b + 1) := by
  obtain ⟨hlt, hrow⟩ := List.getElem?_eq_some_iff.mp hb
  have hmono := List.pairwise_iff_getElem.mp hrows
  conv_lhs => rw [← List.take_append_drop (b + 1) rows, List.filter_append]
  have hkept : (rows.take (b + 1)).filter (·.ts ≤ bound) = rows.take (b + 1) := by
    rw [List.filter_eq_self]
    intro r hr
    obtain ⟨i, hi, rfl⟩ := List.mem_take_iff_getElem.mp hr
    rw [decide_eq_true_eq]
    rcases Nat.lt_or_ge i b with hib | hib
    · have := hmono i b (by omega) hlt hib
      rw [hrow] at this
      omega
    · obtain rfl : i = b := by omega
      rw [hrow]
      exact hle
  have hleft : (rows.drop (b + 1)).filter (·.ts ≤ bound) = [] := by
    rw [List.filter_eq_nil_iff]
    intro r hr
    obtain ⟨i, hi, rfl⟩ := List.mem_drop_iff_getElem.mp hr
    rw [decide_eq_true_eq, not_le]
    have hfirst := hnext rows[b + 1] (List.getElem?_eq_getElem (by omega))
    rcases Nat.eq_zero_or_pos i with rfl | hpos
    · exact hfirst
    · have := hmono (b + 1) (b + 1 + i) (by omega) (by omega) (by omega)
      omega
  rw [hkept, hleft, List.append_nil]

/-- The pointer stands at the row the search finds. -/
theorem pointer_eq_against (hrows : rows.Pairwise (·.ts < ·.ts)) {index b : Nat} {row : Row}
    (hindex : rows[index]? = some row)
    (hb : b = 0 ∨ ∃ r, rows[b]? = some r ∧ r.ts ≤ row.ts - RATE_LAG)
    (hnext : ∀ r, rows[b + 1]? = some r → b + 1 < index → row.ts - RATE_LAG < r.ts) :
    rows[b]? = some (against rows row) := by
  obtain ⟨hlt, hrow⟩ := List.getElem?_eq_some_iff.mp hindex
  have hmono := List.pairwise_iff_getElem.mp hrows
  by_cases hold : ∃ r, rows[b]? = some r ∧ r.ts ≤ row.ts - RATE_LAG
  · obtain ⟨r, hr, hle⟩ := hold
    have hfilter := filter_eq_take hrows hr hle fun next hnextAt => by
      rcases Nat.lt_or_ge (b + 1) index with hbi | hbi
      · exact hnext next hnextAt hbi
      · -- from the row itself on no row is old enough
        obtain ⟨hb1, rfl⟩ := List.getElem?_eq_some_iff.mp hnextAt
        rcases Nat.eq_or_lt_of_le hbi with rfl | hbi
        · rw [hrow, RATE_LAG]
          omega
        · have := hmono index (b + 1) hlt hb1 hbi
          rw [hrow] at this
          rw [RATE_LAG]
          omega
    rw [against, hfilter, List.getLast?_take]
    simp [hr]
  · obtain rfl := hb.resolve_right hold
    obtain ⟨first, rest, rfl⟩ := List.exists_cons_of_length_pos (Nat.zero_lt_of_lt hlt)
    have hfirst : row.ts - RATE_LAG < first.ts := by
      by_contra hle
      exact hold ⟨first, rfl, not_lt.mp hle⟩
    have hfilter : (first :: rest).filter (·.ts ≤ row.ts - RATE_LAG) = [] := by
      rw [List.filter_eq_nil_iff]
      intro r hr
      rw [decide_eq_true_eq, not_le]
      rcases List.mem_cons.mp hr with rfl | hr
      · exact hfirst
      · have := List.rel_of_pairwise_cons hrows hr
        omega
    rw [against, hfilter]
    rfl

/-- The row a rate is taken against is older, but for the first row. -/
theorem against_lt (hrows : rows.Pairwise (·.ts < ·.ts)) {row : Row} (hrow : row ∈ rows.tail) :
    (against rows row).ts < row.ts := by
  cases rows with
  | nil => cases hrow
  | cons first rest =>
    cases hlast : ((first :: rest).filter (·.ts ≤ row.ts - RATE_LAG)).getLast? with
    | none =>
      rw [against, hlast]
      exact List.rel_of_pairwise_cons hrows hrow
    | some r =>
      have hr := (List.mem_filter.mp (List.mem_of_getLast? hlast)).2
      rw [decide_eq_true_eq, RATE_LAG] at hr
      rw [against, hlast]
      change r.ts < row.ts
      omega

/-- For the first row it is that row itself. -/
theorem against_first (hrows : rows.Pairwise (·.ts < ·.ts)) {first : Row}
    (hfirst : rows.head? = some first) : against rows first = first := by
  have hindex : rows[0]? = some first := by rw [← List.head?_eq_getElem?, hfirst]
  have h := pointer_eq_against hrows hindex (.inl rfl) fun _ _ hlt => absurd hlt (Nat.not_lt_zero _)
  rw [← List.head?_eq_getElem?, hfirst] at h
  exact (Option.some.inj h).symm

/-! ## The loop -/

/-- What one row of the list adds. -/
def rowPoints (rows : List Row) (since : Int) (metric : Text) (row : Row) : List Point :=
  if row.ts < since then []
  else if (against rows row).ts < row.ts then
    [(row.ts, some (rateOf metric (against rows row) row))]
  else []

/-- Where the pointer stands is old enough for every row still to come. -/
def Trails (rows : List Row) (baseline : Nat) (rest : List Row) : Prop :=
  ∀ row ∈ rest, baseline = 0 ∨ ∃ r, rows[baseline]? = some r ∧ r.ts ≤ row.ts - RATE_LAG

/-- **One run of the loop**, from any row on: each row adds what a search made for it alone
would give. -/
theorem pointsFrom_eq (hrows : rows.Pairwise (·.ts < ·.ts)) (since : Int) {metric : Text}
    (hmetric : Tallied metric) {index baseline : Nat} {rest : List Row}
    (hrest : rows.drop index = rest) (htrails : Trails rows baseline rest) :
    pointsFrom rows since true metric index baseline rest
      = .ok (rest.flatMap (rowPoints rows since metric)) := by
  induction rest generalizing index baseline with
  | nil => rfl
  | cons row rest ih =>
    have hindex : rows[index]? = some row := by
      rw [← List.head?_drop, hrest, List.head?_cons]
    have htail : rows.drop (index + 1) = rest := by
      rw [← List.tail_drop, hrest, List.tail_cons]
    rw [pointsFrom, List.flatMap_cons, rowPoints]
    by_cases hsince : row.ts < since
    · rw [if_pos hsince, if_pos hsince, List.nil_append]
      exact ih htail fun next hnext => htrails next (List.mem_cons_of_mem row hnext)
    · rw [if_neg hsince, if_neg hsince, if_neg (by decide)]
      obtain ⟨hstop, hnext⟩ :=
        advance_spec rows index (row.ts - RATE_LAG) index baseline (by omega)
      have hb : advance rows index (row.ts - RATE_LAG) index baseline = 0 ∨
          ∃ r, rows[advance rows index (row.ts - RATE_LAG) index baseline]? = some r ∧
            r.ts ≤ row.ts - RATE_LAG := by
        rcases hstop with hsame | hold
        · rw [hsame]
          exact htrails row List.mem_cons_self
        · exact .inr hold
      -- the rows to come are later than this one, so the pointer trails them too
      have htrails' : Trails rows (advance rows index (row.ts - RATE_LAG) index baseline) rest := by
        intro later hlater
        refine hb.imp_right ?_
        rintro ⟨r, hr, hle⟩
        have hlt := List.rel_of_pairwise_cons (hrest ▸ hrows.sublist (List.drop_sublist _ _)) hlater
        exact ⟨r, hr, by omega⟩
      have hbefore := pointer_eq_against hrows hindex hb hnext
      dsimp only
      rw [hbefore]
      dsimp only
      rw [value_tallied hmetric, value_tallied hmetric, ih htail htrails']
      by_cases holder : (against rows row).ts < row.ts
      · rw [if_pos holder]
        simp [holder, rateOf, bind, Except.bind]
      · rw [if_neg holder]
        simp [holder, bind, Except.bind]

theorem rowPoints_later (hrows : rows.Pairwise (·.ts < ·.ts)) (since : Int) (metric : Text)
    {row : Row} (hrow : row ∈ rows.tail) :
    rowPoints rows since metric row =
      if since ≤ row.ts then [(row.ts, some (rateOf metric (against rows row) row))] else [] := by
  rw [rowPoints, if_pos (against_lt hrows hrow)]
  by_cases h : row.ts < since
  · rw [if_pos h, if_neg (not_le.mpr h)]
  · rw [if_neg h, if_pos (not_lt.mp h)]

theorem rowPoints_first (hrows : rows.Pairwise (·.ts < ·.ts)) (since : Int) (metric : Text)
    {first : Row} (hfirst : rows.head? = some first) : rowPoints rows since metric first = [] := by
  rw [rowPoints, against_first hrows hfirst, if_neg (lt_irrefl _), ite_self]

theorem flatMap_ite {later : List Row} {keep : Row → Prop} [DecidablePred keep] (f : Row → Point) :
    (later.flatMap fun row => if keep row then [f row] else [])
      = (later.filter fun row => keep row).map f := by
  induction later with
  | nil => rfl
  | cons row later ih =>
    rw [List.flatMap_cons, ih]
    by_cases h : keep row
    · simp [h]
    · simp [h]

/-- Only the first row adds nothing where it is inside the window. -/
theorem flatMap_rowPoints (hrows : rows.Pairwise (·.ts < ·.ts)) (since : Int) (metric : Text) :
    rows.flatMap (rowPoints rows since metric) = expected rows since metric := by
  have htail : rows.flatMap (rowPoints rows since metric)
      = rows.tail.flatMap (rowPoints rows since metric) := by
    cases hall : rows with
    | nil => rfl
    | cons first rest =>
      rw [List.flatMap_cons, List.tail_cons, rowPoints_first (hall ▸ hrows) since metric rfl,
        List.nil_append]
  rw [htail, List.flatMap_congr fun row hrow => rowPoints_later hrows since metric hrow,
    flatMap_ite, expected]

theorem rateOf_nonneg {metric : Text} {before row : Row} (h : before.ts < row.ts) :
    0 ≤ rateOf metric before row := by
  refine div_nonneg (le_max_left _ _) ?_
  exact_mod_cast (sub_pos.mpr h).le

theorem points_eq (hrows : rows.Pairwise (·.ts < ·.ts)) (since : Int) {metric : Text}
    (hmetric : Tallied metric) : points rows since true metric = .ok (expected rows since metric) := by
  rw [points, pointsFrom_eq hrows since hmetric List.drop_zero fun _ _ => .inl rfl,
    flatMap_rowPoints hrows]

theorem expected_nonneg (hrows : rows.Pairwise (·.ts < ·.ts)) {since : Int} {metric : Text}
    {point : Point} (h : point ∈ expected rows since metric) : ∃ q, point.2 = some q ∧ 0 ≤ q := by
  obtain ⟨row, hrow, rfl⟩ := List.mem_map.mp h
  exact ⟨_, rfl, rateOf_nonneg (against_lt hrows (List.mem_filter.mp hrow).1)⟩

end

/-- **The right baseline.**  Over rows in the order of their times, the rates of a metric
are one for each row of the window but the first row of the list, each taken against the
row a search finds for it: an older row, so there is a time to divide by, and a rate that
is not negative. -/
theorem rates_against_search (rows : List Row) (hrows : rows.Pairwise (·.ts < ·.ts)) (since : Int)
    (metric : Text) (hmetric : Tallied metric) :
    points rows since true metric = .ok (expected rows since metric) ∧
      (∀ row ∈ rows.tail, (against rows row).ts < row.ts) ∧
      ∀ point ∈ expected rows since metric, ∃ q, point.2 = some q ∧ 0 ≤ q :=
  ⟨points_eq hrows since hmetric, fun _ hrow => against_lt hrows hrow,
    fun _ hpoint => expected_nonneg hrows hpoint⟩

/-- A row of a count of records. -/
def counted (ts records : Int) : Row :=
  ⟨ts, fun column => if column = .records then records else 0⟩

theorem rates_against_search_gap :
    points [counted 0 5, counted 50 8, counted 70 6, counted 200 26] 60 true "records".toList
      = .ok [(70, some (1 / 70)), (200, some (20 / 130))] := by
  have h := (rates_against_search [counted 0 5, counted 50 8, counted 70 6, counted 200 26]
    (by decide) 60 "records".toList (.inr (.inl (by decide)))).1
  rw [h]
  decide +kernel

/-! ## What is sent -/

theorem samplesRows_pairwise {table : List Row} (h : table.Pairwise (·.ts < ·.ts)) (since : Int) :
    (samplesRows table since).Pairwise (·.ts < ·.ts) := by
  unfold samplesRows
  dsimp only
  cases hlast : (table.filter (·.ts < since)).getLast? with
  | none => exact h.filter _
  | some before =>
    refine List.pairwise_cons.mpr ⟨fun row hrow => ?_, h.filter _⟩
    have hbefore := (List.mem_filter.mp (List.mem_of_getLast? hlast)).2
    have hinside := (List.mem_filter.mp hrow).2
    rw [decide_eq_true_eq] at hbefore hinside
    omega

/-- Thinning adds no point. -/
theorem mem_downsample {found : List Point} {point : Point} (h : point ∈ downsample found) :
    point ∈ found := by
  unfold downsample at h
  split at h
  · exact h
  · obtain ⟨_, -, hget⟩ := List.mem_filterMap.mp h
    exact List.mem_of_getElem? hget

theorem length_downsample (found : List Point) : (downsample found).length ≤ MAX_POINTS := by
  unfold downsample
  split
  · assumption
  · exact (List.length_filterMap_le _ _).trans (List.length_range ▸ le_rfl)

private theorem tallied_rate : ∀ metric ∈ "keys".toList :: (COUNTERS.map Prod.snd ++ SUMS.map Prod.fst),
    metric ∉ RATIOS.map Prod.fst ∧ metric ++ RATE_SUFFIX ∈ metrics := by
  decide

/-- A rate that is asked for is the thinned list of the rates over the rows there are. -/
theorem series_rate {table : List Row} (htable : table.Pairwise (·.ts < ·.ts)) (now upTo : Int)
    {metric : Text} (hmetric : Tallied metric) (window : Text) :
    ∃ sent, series table now upTo (metric ++ RATE_SUFFIX) window = .ok sent ∧
      sent.points = downsample
        (expected (samplesRows table (sent.since - RATE_LAG)) sent.since metric) ∧
      sent.points.length ≤ MAX_POINTS ∧ ∀ point ∈ sent.points, ∃ q, point.2 = some q ∧ 0 ≤ q := by
  have hrate : RATE_SUFFIX.isSuffixOf (metric ++ RATE_SUFFIX) = true :=
    List.isSuffixOf_iff_suffix.mpr (List.suffix_append _ _)
  have hname : (metric ++ RATE_SUFFIX).take ((metric ++ RATE_SUFFIX).length - RATE_SUFFIX.length)
      = metric := by
    rw [List.length_append, Nat.add_sub_cancel, List.take_left]
  obtain ⟨hratio, hknown⟩ := tallied_rate metric (by simpa [Tallied] using hmetric)
  have hrows := samplesRows_pairwise htable
    (now - (WINDOWS.lookup window).getD (RETENTION_DAYS * 86400) - RATE_LAG)
  unfold series
  simp only [hrate, hname, hratio, hknown, if_true, not_true_eq_false, and_false, if_false,
    points_eq hrows _ hmetric, bind, Except.bind]
  exact ⟨_, rfl, rfl, length_downsample _, fun point hpoint =>
    expected_nonneg hrows (mem_downsample hpoint)⟩

end CdrProcessor.Sampler
