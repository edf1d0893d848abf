import XdpCollectives.Benchmark.Theorems.Format
import Mathlib.Algebra.BigOperators.Group.List.Basic
import Mathlib.Algebra.Order.BigOperators.Group.List

open Csv

-- What is read back of the file of the results.
namespace Benchmark

variable {combinations : List Combination} {runsData : List RunData} {run : RunData} {headers row : List Text}
  {rows : List (List Text)} {p : Parser} {c : Combination} {col : List Double} {name : Text} {n r : Nat}

-- The text of the value of a column in row `r`.
def cell (r : Nat) (col : List Double) : Text :=
  match col[r]? with
  | some x => formatCsvValue (.float x)
  | none   => []

def height (run : RunData) : Nat :=
  (run.map List.length).foldr max 0

def texts (run : RunData) : List (List Text) :=
  (List.range (height run)).map fun r => run.map (cell r)

theorem runRows_texts (run : RunData) : (runRows run).map (fun row => row.map formatCsvValue) = texts run := by
  simp only [runRows, texts, height, List.map_map]
  refine List.map_congr_left fun r _ => ?_
  simp only [Function.comp_apply, List.map_map]
  refine List.map_congr_left fun col _ => ?_
  simp only [Function.comp_apply, cell]
  cases col[r]? <;> rfl

theorem length_le_height (h : col ∈ run) : col.length ≤ height run := by
  rw [height]
  induction run
  case nil => contradiction
  case cons a run hi =>
    rw [List.map_cons, List.foldr_cons]
    rcases List.mem_cons.mp h with rfl | h
    · exact Nat.le_max_left ..
    · exact Nat.le_trans (hi h) (Nat.le_max_right ..)

theorem lt_height (h : r < height run) : ∃ col ∈ run, r < col.length := by
  rw [height] at h
  induction run
  case nil => contradiction
  case cons a run hi =>
    rw [List.map_cons, List.foldr_cons] at h
    rcases Nat.lt_or_ge r a.length with h | h
    · exact ⟨a, by simp, h⟩
    · have ⟨col, hm, hl⟩ := hi (by omega)
      exact ⟨col, List.mem_cons_of_mem _ hm, hl⟩

theorem cell_numeral (h : r < col.length) : Numeral (cell r col) := by
  rw [cell, List.getElem?_eq_getElem h]
  exact formatCsvValue_numeral _

theorem cell_of_le (h : col.length ≤ r) : cell r col = [] := by
  rw [cell, List.getElem?_eq_none h]

theorem cell_cases (r : Nat) (col : List Double) : cell r col = [] ∨ Numeral (cell r col) := by
  rcases Nat.lt_or_ge r col.length with h | h
  · exact .inr (cell_numeral h)
  · exact .inl (cell_of_le h)

-- A line that belongs to a run: it is one cell for each column, and not all of them are empty.
structure DataRow (headers row : List Text) : Prop where
  line   : Line row
  length : (cells row).length = headers.length
  value  : ∃ t ∈ cells row, t ≠ []

-- What a row adds to the column of that name.
def entries (headers values : List Text) (name : Text) : List Text :=
  ((headers.zip values).filter (·.1 = name)).map (·.2)

theorem foldl_appendValue {zs : List (Text × Text)} (h : ∀ z ∈ zs, strip z.2 = z.2) (run : Columns) (name : Text) :
    zs.foldl (fun run (col, val) => appendValue run col val) run name =
      run name ++ (zs.filter (·.1 = name)).map (·.2) := by
  induction zs generalizing run
  case nil => simp
  case cons z zs hi =>
    obtain ⟨a, v⟩ := z
    have hv : strip v = v := h (a, v) (by simp)
    rw [List.foldl_cons, hi fun y hy => h y (List.mem_cons_of_mem _ hy)]
    simp only [appendValue, hv]
    by_cases ha : a = name
    case pos =>
      subst ha
      simp
    case neg => rw [Function.update_of_ne (Ne.symm ha), List.filter_cons_of_neg (by simpa using ha)]

theorem readLine_data (h : DataRow headers row) : readLine headers p (record row) =
    some { p with currentRun := fun name => p.currentRun name ++ entries headers (cells row) name } := by
  have ⟨t, ht, hne⟩ := h.value
  have hstrip : ∀ t ∈ cells row, strip t = t := fun t ht => strip_eq_self (h.line.isSpace_cells t ht)
  have hany : (cells row).any (fun v => strip v ≠ []) = true := by
    rw [List.any_eq_true]
    exact ⟨t, ht, by simpa [hstrip t ht] using hne⟩
  simp only [readLine, h.line.strip_record, h.line.split_record, hany, h.length]
  simp only [Bool.not_true, Bool.false_eq_true, if_false, Nat.sub_self, List.replicate_zero, List.append_nil]
  congr 2
  funext name
  exact foldl_appendValue (fun z hz => hstrip _ (List.of_mem_zip hz).right) _ _

theorem readLine_rows (h : ∀ row ∈ rows, DataRow headers row) : (rows.map record).foldlM (readLine headers) p =
    some { p with
      currentRun := fun name => p.currentRun name ++ rows.flatMap fun row => entries headers (cells row) name } := by
  induction rows generalizing p
  case nil => simp
  case cons row rows hi =>
    rw [List.map_cons, List.foldlM_cons, readLine_data (h row (by simp))]
    simp only [Option.bind_eq_bind, Option.bind_some]
    rw [hi fun r hr => h r (List.mem_cons_of_mem _ hr)]
    simp only [List.flatMap_cons, List.append_assoc]

theorem cells_of_value (h : ∃ t ∈ row, t ≠ []) : cells row = row := by
  refine cells_cons_ne fun he => ?_
  have ⟨t, ht, hne⟩ := h
  rw [he] at ht
  exact hne (List.mem_singleton.mp ht)

theorem plain_nil : Plain [] := nofun

theorem cell_plain (r : Nat) (col : List Double) : Plain (cell r col) :=
  (cell_cases r col).elim (fun h => h ▸ plain_nil) Numeral.plain

theorem texts_value (h : row ∈ texts run) : ∃ t ∈ row, t ≠ [] := by
  have ⟨r, hr, he⟩ := List.mem_map.mp h
  have ⟨col, hm, hl⟩ := lt_height (List.mem_range.mp hr)
  exact ⟨cell r col, he ▸ List.mem_map_of_mem hm, (cell_numeral hl).ne_nil⟩

theorem texts_data (hl : run.length = headers.length) (h : row ∈ texts run) : DataRow headers row := by
  have hv := texts_value h
  have ⟨r, hr, he⟩ := List.mem_map.mp h
  have hlen : row.length = headers.length := by rw [← he, List.length_map, hl]
  exact {
    line := {
      plain    := by
        intro t ht
        rw [← he] at ht
        have ⟨col, _, hc⟩ := List.mem_map.mp ht
        exact hc ▸ cell_plain r col
      nonempty := by
        rintro rfl
        have ⟨t, ht, _⟩ := hv
        contradiction }
    length := by rw [cells_of_value hv, hlen]
    value  := by rwa [cells_of_value hv] }

def runColumns (headers : List Text) (run : RunData) : Columns :=
  fun name => (texts run).flatMap fun row => entries headers (cells row) name

def runRecord (headers : List Text) (run : RunData) : Columns :=
  fun name => (runColumns headers run name).filter (· ≠ [])

def measured (run : RunData) : Bool :=
  run.any fun col => col ≠ []

theorem mem_entries {values : List Text} {t : Text} (h : t ∈ entries headers values name) : t ∈ values := by
  have ⟨z, hz, he⟩ := List.mem_map.mp h
  exact he ▸ (List.of_mem_zip (List.mem_of_mem_filter hz)).right

theorem runColumns_float {t : Text} (h : t ∈ runColumns headers run name) : t = [] ∨ isFloat t := by
  have ⟨row, hr, ht⟩ := List.mem_flatMap.mp h
  have ht := mem_entries ht
  rw [cells_of_value (texts_value hr)] at ht
  have ⟨r, _, he⟩ := List.mem_map.mp hr
  rw [← he] at ht
  have ⟨col, _, hc⟩ := List.mem_map.mp ht
  exact hc ▸ (cell_cases r col).imp id Numeral.isFloat

theorem texts_nil (h : measured run = false) : texts run = [] := by
  have hh : height run = 0 := by
    by_contra hne
    have ⟨col, hm, hl⟩ := lt_height (Nat.pos_of_ne_zero hne)
    simp only [measured, List.any_eq_false] at h
    have hc := h col hm
    simp only [ne_eq, decide_not, Bool.not_eq_true', decide_eq_false_iff_not, not_not] at hc
    simp [hc] at hl
  rw [texts, hh, List.range_zero, List.map_nil]

theorem texts_ne_nil (h : measured run = true) : texts run ≠ [] := by
  have ⟨col, hm, hc⟩ := List.any_eq_true.mp h
  have hl := length_le_height hm
  have hp : 0 < col.length := List.length_pos_iff.mpr (by simpa using hc)
  simp [texts]
  omega

theorem hasValues_run (hne : headers ≠ []) (hl : run.length = headers.length) (h : measured run = true) :
    hasValues headers (runColumns headers run) = true := by
  obtain ⟨name, hs, rfl⟩ := List.exists_cons_of_ne_nil hne
  obtain ⟨row, rs, ht⟩ := List.exists_cons_of_ne_nil (texts_ne_nil h)
  have hd : DataRow (name :: hs) row := texts_data hl (ht ▸ List.mem_cons_self)
  obtain ⟨t, ts, hc⟩ := List.exists_cons_of_ne_nil hd.line.cells_ne_nil
  rw [hasValues, List.any_eq_true]
  refine ⟨name, by simp, ?_⟩
  simp [runColumns, ht, hc, entries]

theorem endRun_run (hne : headers ≠ []) (hl : run.length = headers.length) (done : List Columns) :
    endRun headers ⟨done, runColumns headers run⟩ =
      some ⟨done ++ if measured run then [runRecord headers run] else [], noColumns⟩ := by
  rw [endRun]
  by_cases hm : measured run = true
  case pos =>
    have hf : (headers.all fun col => (runColumns headers run col).all fun x => x = [] || isFloat x) = true := by
      rw [List.all_eq_true]
      intro name _
      rw [List.all_eq_true]
      intro t ht
      simpa using runColumns_float ht
    rw [if_pos (hasValues_run hne hl hm), runValues, if_pos hf, if_pos hm]
    rfl
  case neg =>
    have hc : runColumns headers run = noColumns := by
      funext name
      rw [runColumns, texts_nil (by simpa using hm)]
      rfl
    have hv : hasValues headers noColumns = false := by simp [hasValues, noColumns]
    rw [hc, if_neg hm, List.append_nil]
    simp [hv]

-- The rows of the file below the names of the columns.
def matrixTexts (width : Nat) (runsData : List RunData) : List (List Text) :=
  (resultsMatrix width runsData).map fun row => row.map formatCsvValue

theorem matrixTexts_singleton (n : Nat) (run : RunData) : matrixTexts n [run] = texts run :=
  runRows_texts run

theorem matrixTexts_cons (n : Nat) (run next : RunData) (rest : List RunData) :
    matrixTexts n (run :: next :: rest) = texts run ++ List.replicate n [] :: matrixTexts n (next :: rest) := by
  rw [matrixTexts, resultsMatrix.eq_3 _ _ _ (by simp), List.map_append, runRows_texts, List.map_cons,
    List.map_replicate]
  rfl

theorem separator_line (hn : n ≠ 0) : Line (List.replicate n []) where
  plain t ht := (List.mem_replicate.mp ht).right ▸ plain_nil
  nonempty   := by simpa using hn

theorem matrixTexts_cases (h : row ∈ matrixTexts n runsData) :
    (∃ run ∈ runsData, row ∈ texts run) ∨ row = List.replicate n [] := by
  induction runsData
  case nil => contradiction
  case cons run rest hi =>
    cases rest with
    | nil            => exact .inl ⟨run, List.mem_cons_self, matrixTexts_singleton .. ▸ h⟩
    | cons next rest =>
      rw [matrixTexts_cons, List.mem_append, List.mem_cons] at h
      rcases h with h | h | h
      · exact .inl ⟨run, List.mem_cons_self, h⟩
      · exact .inr h
      · exact (hi h).imp_left fun ⟨run, hr, ht⟩ => ⟨run, List.mem_cons_of_mem _ hr, ht⟩

theorem matrixTexts_line (hne : headers ≠ []) (hl : ∀ run ∈ runsData, run.length = headers.length) :
    ∀ row ∈ matrixTexts headers.length runsData, Line row := by
  intro row hr
  rcases matrixTexts_cases hr with ⟨run, hm, ht⟩ | rfl
  · exact (texts_data (hl run hm) ht).line
  · exact separator_line (by simpa using hne)

-- With two columns or more a separator is a line of commas.
theorem readLine_separator (hn : 2 ≤ headers.length) (p : Parser) :
    readLine headers p (record (List.replicate headers.length [])) = endRun headers p := by
  have hs : Line (List.replicate headers.length []) := separator_line (by omega)
  have hc : cells (List.replicate headers.length []) = List.replicate headers.length [] := by
    refine cells_cons_ne fun he => ?_
    have hl := congrArg List.length he
    rw [List.length_replicate, List.length_singleton] at hl
    omega
  have hany : (List.replicate headers.length []).any (fun v => strip v ≠ []) = false := by
    rw [List.any_eq_false]
    intro t ht
    rw [(List.mem_replicate.mp ht).right]
    decide
  simp only [readLine, hs.strip_record, hs.split_record, hc, hany]
  rfl

theorem readLine_matrix (hne : headers ≠ []) (hl : ∀ run ∈ runsData, run.length = headers.length)
    (hs : 2 ≤ headers.length ∨ runsData.length ≤ 1) (done : List Columns) :
    (((matrixTexts headers.length runsData).map record).foldlM (readLine headers) ⟨done, noColumns⟩).bind
      (endRun headers) =
      some ⟨done ++ (runsData.filter measured).map (runRecord headers), noColumns⟩ := by
  induction runsData generalizing done
  case nil =>
    have hv : hasValues headers noColumns = false := by simp [hasValues, noColumns]
    simp [matrixTexts, resultsMatrix, endRun, hv]
  case cons run rest hi =>
    have hlr := hl run (by simp)
    have hrun : ((texts run).map record).foldlM (readLine headers) ⟨done, noColumns⟩ =
        some ⟨done, runColumns headers run⟩ := readLine_rows fun row => texts_data hlr
    have hf (rest : List RunData) : ((run :: rest).filter measured).map (runRecord headers) =
        (if measured run then [runRecord headers run] else []) ++ (rest.filter measured).map (runRecord headers) := by
      rw [List.filter_cons]
      split <;> rfl
    cases rest with
    | nil =>
      rw [matrixTexts_singleton, hrun, Option.bind_some, endRun_run hne hlr, hf]
      simp
    | cons next rest =>
      have hn : 2 ≤ headers.length := hs.resolve_right (by simp)
      rw [matrixTexts_cons, List.map_append, List.foldlM_append, hrun, List.map_cons]
      simp only [Option.bind_eq_bind, Option.bind_some]
      rw [List.foldlM_cons, readLine_separator hn, endRun_run hne hlr]
      simp only [Option.bind_eq_bind, Option.bind_some]
      rw [hi (fun run hr => hl run (List.mem_cons_of_mem _ hr)) (.inl hn), hf, List.append_assoc]

theorem plotRuns_write (hne : headers ≠ []) (hp : ∀ name ∈ headers, Plain name ∧ name ≠ [])
    (hl : ∀ run ∈ runsData, run.length = headers.length) :
    plotRuns (universalNewlines (write (headers :: matrixTexts headers.length runsData))) =
      ((((matrixTexts headers.length runsData).map record).foldlM (readLine headers) ⟨[], noColumns⟩).bind
        (endRun headers)).map Parser.runsData := by
  have hv : ∃ t ∈ headers, t ≠ [] := by
    obtain ⟨name, hs, rfl⟩ := List.exists_cons_of_ne_nil hne
    exact ⟨name, by simp, (hp name (by simp)).right⟩
  have hh : Line headers := ⟨fun t ht => (hp t ht).left, hne⟩
  have hlines : ∀ row ∈ headers :: matrixTexts headers.length runsData, Line row := by
    intro row hr
    rcases List.mem_cons.mp hr with rfl | hr
    · exact hh
    · exact matrixTexts_line hne hl row hr
  have hstrip : headers.map strip = headers := by
    conv_rhs => rw [← List.map_id headers]
    exact List.map_congr_left fun t ht => (hp t ht).left.strip
  simp only [plotRuns, split_write hlines (by simp), List.map_cons, hh.split_record, cells_of_value hv, hstrip]
  generalize List.foldlM (readLine headers) _ _ = p
  cases p with
  | none   => rfl
  | some p =>
    simp only [Option.bind_eq_bind, Option.bind_some]
    cases endRun headers p <;> rfl

-- A file of one column: its separators are two quotes, which are no number.
theorem separator_data (name : Text) : DataRow [name] [[]] where
  line   := separator_line (n := 1) (by decide)
  length := rfl
  value  := ⟨quote [], List.mem_singleton.mpr rfl, by decide⟩

theorem separator_mem (h : 2 ≤ runsData.length) : List.replicate n [] ∈ matrixTexts n runsData := by
  match runsData, h with
  | run :: next :: rest, _ =>
    rw [matrixTexts_cons]
    simp

theorem matrixTexts_data (hl : ∀ run ∈ runsData, run.length = 1) :
    ∀ row ∈ matrixTexts 1 runsData, DataRow [name] row := by
  intro row hr
  rcases matrixTexts_cases hr with ⟨run, hm, ht⟩ | rfl
  · exact texts_data (hl run hm) ht
  · exact separator_data name

theorem endRun_none {run : Columns} (hm : name ∈ headers) (hq : quote [] ∈ run name) (done : List Columns) :
    endRun headers ⟨done, run⟩ = none := by
  have hv : hasValues headers run = true := by
    rw [hasValues, List.any_eq_true]
    exact ⟨name, hm, decide_eq_true (List.length_pos_of_mem hq)⟩
  have hf : ¬(headers.all fun col => (run col).all fun x => x = [] || isFloat x) = true := by
    intro ha
    have hx := List.all_eq_true.mp (List.all_eq_true.mp ha name hm) _ hq
    exact absurd hx (by decide)
  rw [endRun, if_pos hv, runValues, if_neg hf]
  rfl

theorem readLine_matrix_singleton (hl : ∀ run ∈ runsData, run.length = 1) (h : 2 ≤ runsData.length)
    (done : List Columns) :
    (((matrixTexts 1 runsData).map record).foldlM (readLine [name]) ⟨done, noColumns⟩).bind (endRun [name]) = none := by
  rw [readLine_rows (matrixTexts_data hl), Option.bind_some]
  have hm : quote [] ∈ (matrixTexts 1 runsData).flatMap fun row => entries [name] (cells row) name :=
    List.mem_flatMap.mpr ⟨[[]], separator_mem h, by simp [entries, cells]⟩
  exact endRun_none List.mem_cons_self (List.mem_append_right _ hm) done

-- The value that a column with the name of `c` has in row `r`.
def value? (c : Combination) (r : Nat) (z : Combination × List Double) : Option Text :=
  if z.1 = c then z.2[r]?.map fun x => formatCsvValue (.float x) else none

theorem entries_filter (c : Combination) (r : Nat) (combinations : List Combination) (run : RunData) :
    (entries (combinations.map header) (run.map (cell r)) (header c)).filter (· ≠ []) =
      (combinations.zip run).filterMap (value? c r) := by
  rw [entries, List.zip_map]
  induction combinations.zip run
  case nil => rfl
  case cons z zs hi =>
    obtain ⟨b, col⟩ := z
    by_cases hb : b = c
    case neg =>
      have hh : header b ≠ header c := fun h => hb (header_injective h)
      have hv : value? c r (b, col) = none := if_neg hb
      rw [List.map_cons, List.filter_cons_of_neg (by simpa using hh), hi, List.filterMap_cons_none hv]
    case pos =>
      subst hb
      rw [List.map_cons, List.filter_cons_of_pos (by simp), List.map_cons]
      cases hr : col[r]? with
      | none =>
        have hv : value? b r (b, col) = none := by simp [value?, hr]
        have hc : cell r col = [] := by simp [cell, hr]
        rw [List.filter_cons_of_neg (by simpa using hc), hi, List.filterMap_cons_none hv]
      | some x =>
        have hv : value? b r (b, col) = some (formatCsvValue (.float x)) := by simp [value?, hr]
        have hc : cell r col = formatCsvValue (.float x) := by simp [cell, hr]
        have hne := (formatCsvValue_numeral x).ne_nil
        rw [List.filter_cons_of_pos (by simpa [hc] using hne), hi, List.filterMap_cons_some hv]
        exact congrArg (· :: _) hc

theorem runRecord_eq (c : Combination) (combinations : List Combination) (run : RunData) :
    runRecord (combinations.map header) run (header c) =
      (List.range (height run)).flatMap fun r => (combinations.zip run).filterMap (value? c r) := by
  have hcells : (texts run).flatMap (fun row => entries (combinations.map header) (cells row) (header c)) =
      (texts run).flatMap fun row => entries (combinations.map header) row (header c) :=
    List.flatMap_congr fun row hr => by rw [cells_of_value (texts_value hr)]
  rw [runRecord, runColumns, hcells, texts, List.flatMap_map, List.filter_flatMap]
  exact List.flatMap_congr fun r _ => entries_filter c r combinations run

theorem flatMap_getElem? {α : Type} {xs : List α} (h : xs.length ≤ n) :
    (List.range n).flatMap (fun r => xs[r]?.toList) = xs := by
  induction xs generalizing n
  case nil => simp
  case cons x xs hi =>
    cases n with
    | zero   => simp at h
    | succ n =>
      rw [List.range_succ_eq_map, List.flatMap_cons, List.flatMap_map]
      simp only [List.getElem?_cons_zero, List.getElem?_cons_succ, Option.toList_some, List.singleton_append]
      rw [hi (by simpa using h)]

theorem value?_eq_none {z : Combination × List Double} (h : z.1 = c → z.2 = []) : value? c r z = none := by
  rw [value?]
  split
  case isTrue hz => rw [h hz]; rfl
  case isFalse   => rfl

theorem filterMap_value? {zs : List (Combination × List Double)} {i : Nat} (hi : zs[i]? = some (c, col))
    (h : ∀ j xs, j ≠ i → zs[j]? = some (c, xs) → xs = []) (r : Nat) :
    zs.filterMap (value? c r) = (col[r]?.toList).map fun x => formatCsvValue (.float x) := by
  induction zs generalizing i
  case nil => contradiction
  case cons z zs ih =>
    cases i with
    | zero =>
      obtain rfl : z = (c, col) := Option.some.inj hi
      have hrest : zs.filterMap (value? c r) = [] := by
        rw [List.filterMap_eq_nil_iff]
        intro z hz
        have ⟨j, hj⟩ := List.mem_iff_getElem?.mp hz
        refine value?_eq_none fun he => h (j + 1) z.2 (by simp) ?_
        rw [List.getElem?_cons_succ, hj, ← he]
      rw [List.filterMap_cons, hrest, value?, if_pos rfl]
      cases col[r]? <;> rfl
    | succ i =>
      have hz : value? c r z = none := by
        refine value?_eq_none fun he => h 0 z.2 (by simp) ?_
        rw [List.getElem?_cons_zero, ← he]
      rw [List.filterMap_cons_none hz]
      exact ih hi fun j xs hj hx => h (j + 1) xs (by simpa using hj) hx

-- A column that shares its name with none but empty ones is read back as it is.
theorem flatMap_value? {zs : List (Combination × List Double)} {i : Nat} (hi : zs[i]? = some (c, col))
    (hn : col.length ≤ n) (h : ∀ j xs, j ≠ i → zs[j]? = some (c, xs) → xs = []) :
    ((List.range n).flatMap fun r => zs.filterMap (value? c r)) = col.map fun x => formatCsvValue (.float x) := by
  simp only [filterMap_value? hi h]
  rw [← List.map_flatMap, flatMap_getElem? hn]

-- In general there are as many values as the columns of that name have in all.
def weight (c : Combination) (z : Combination × List Double) : Nat :=
  if z.1 = c then z.2.length else 0

theorem length_flatMap_value? {zs : List (Combination × List Double)} (h : ∀ z ∈ zs, z.2.length ≤ n) :
    ((List.range n).flatMap fun r => zs.filterMap (value? c r)).length = (zs.map (weight c)).sum := by
  induction zs
  case nil => simp
  case cons z zs ih =>
    have ih := ih fun y hy => h y (List.mem_cons_of_mem _ hy)
    have hz : ((List.range n).flatMap fun r => (value? c r z).toList).length = weight c z := by
      by_cases hc : z.1 = c
      case neg => simp [value?, weight, hc]
      case pos =>
        have hv (r : Nat) : (value? c r z).toList = (z.2[r]?.toList).map fun x => formatCsvValue (.float x) := by
          rw [value?, if_pos hc]
          cases z.2[r]? <;> rfl
        simp only [hv]
        rw [← List.map_flatMap, flatMap_getElem? (h z (by simp)), List.length_map, weight, if_pos hc]
    have hsplit (r : Nat) : ((z :: zs).filterMap (value? c r)).length =
        (value? c r z).toList.length + (zs.filterMap (value? c r)).length := by
      rw [List.filterMap_cons]
      cases value? c r z with
      | none   => simp
      | some t => simp [Nat.add_comm]
    rw [List.length_flatMap] at ih hz ⊢
    simp only [hsplit, List.sum_map_add, ih, hz, List.map_cons, List.sum_cons]

theorem add_le_sum {ws : List Nat} {i j a b : Nat} (hij : i ≠ j) (hi : ws[i]? = some a) (hj : ws[j]? = some b) :
    a + b ≤ ws.sum := by
  induction ws generalizing i j
  case nil => contradiction
  case cons w ws ih =>
    rw [List.sum_cons]
    cases i with
    | zero =>
      cases j with
      | zero   => contradiction
      | succ j =>
        obtain rfl : w = a := Option.some.inj hi
        have hb : b ∈ ws := List.mem_of_getElem? (i := j) hj
        have := List.le_sum_of_mem hb
        omega
    | succ i =>
      cases j with
      | zero   =>
        obtain rfl : w = b := Option.some.inj hj
        have ha : a ∈ ws := List.mem_of_getElem? (i := i) hi
        have := List.le_sum_of_mem ha
        omega
      | succ j =>
        have := ih (by simpa using hij) hi hj
        omega

-- Two columns of one name are not told apart.
theorem eq_nil_of_same {zs : List (Combination × List Double)} {i j : Nat} {xs : List Double} (hij : i ≠ j)
    (hi : zs[i]? = some (c, col)) (hj : zs[j]? = some (c, xs)) (h : (zs.map (weight c)).sum = col.length) :
    xs = [] := by
  have hwi : (zs.map (weight c))[i]? = some col.length := by simp [hi, weight]
  have hwj : (zs.map (weight c))[j]? = some xs.length := by simp [hj, weight]
  have hl := add_le_sum hij hwi hwj
  exact List.length_eq_zero_iff.mp (by omega)

-- The columns of a record hold the texts of the measurements of the run.
def Records (combinations : List Combination) (run : RunData) (record : Columns) : Prop :=
  ∀ (i : Nat) (c : Combination) (col : List Double), combinations[i]? = some c → run[i]? = some col →
    record (header c) = col.map fun x => formatCsvValue (.float x)

-- One record for each run that has a measurement.
def RoundTrips (combinations : List Combination) (runsData : List RunData) : Prop :=
  ∃ records, plotRuns (universalNewlines (writeResults combinations runsData)) = some records ∧
    List.Forall₂ (Records combinations) (runsData.filter measured) records

-- There is a comma in every separator, or no separator, and what measurements there are have a name of their own.
structure Readable (combinations : List Combination) (runsData : List RunData) : Prop where
  separated : 2 ≤ combinations.length ∨ runsData.length ≤ 1
  distinct  : ∀ run ∈ runsData, ∀ (i j : Nat) (c : Combination), i ≠ j → combinations[i]? = some c →
    combinations[j]? = some c → run[j]? = some []

theorem records_iff (hl : run.length = combinations.length) :
    Records combinations run (runRecord (combinations.map header) run) ↔
      ∀ (i j : Nat) (c : Combination), i ≠ j → combinations[i]? = some c → combinations[j]? = some c →
        run[j]? = some [] := by
  have hzip {i : Nat} {c : Combination} {col : List Double} (hc : combinations[i]? = some c) (hr : run[i]? = some col) :
      (combinations.zip run)[i]? = some (c, col) := List.getElem?_zip_eq_some.mpr ⟨hc, hr⟩
  have hcol {i : Nat} {c : Combination} (hc : combinations[i]? = some c) : ∃ col, run[i]? = some col := by
    have ⟨hi, _⟩ := List.getElem?_eq_some_iff.mp hc
    exact ⟨run[i], List.getElem?_eq_getElem (hl ▸ hi)⟩
  have hheight : ∀ z ∈ combinations.zip run, z.2.length ≤ height run := fun z hz =>
    length_le_height (List.of_mem_zip hz).right
  constructor
  case mp =>
    intro h i j c hij hi hj
    have ⟨xs, hxi⟩ := hcol hi
    have ⟨ys, hyj⟩ := hcol hj
    have hr := congrArg List.length (h i c xs hi hxi)
    rw [runRecord_eq, length_flatMap_value? hheight, List.length_map] at hr
    rw [hyj, eq_nil_of_same hij (hzip hi hxi) (hzip hj hyj) hr]
  case mpr =>
    intro h i c col hi hr
    rw [runRecord_eq]
    refine flatMap_value? (hzip hi hr) (length_le_height (List.mem_of_getElem? hr)) fun j xs hj hz => ?_
    have ⟨hcj, hrj⟩ := List.getElem?_zip_eq_some.mp hz
    rw [h i j c hj.symm hi hcj] at hrj
    exact (Option.some.inj hrj).symm

-- What is read back where it is anything at all.
theorem plotRuns_results (hne : combinations ≠ []) (hl : ∀ run ∈ runsData, run.length = combinations.length) :
    plotRuns (universalNewlines (writeResults combinations runsData)) =
      if 2 ≤ combinations.length ∨ runsData.length ≤ 1 then
        some ((runsData.filter measured).map (runRecord (combinations.map header)))
      else none := by
  have hp : ∀ name ∈ combinations.map header, Plain name ∧ name ≠ [] := by
    intro name hm
    have ⟨c, _, he⟩ := List.mem_map.mp hm
    exact he ▸ ⟨header_plain c, header_ne_nil c⟩
  have hlen : (combinations.map header).length = combinations.length := List.length_map ..
  have hne' : combinations.map header ≠ [] := by simpa using hne
  have hl' : ∀ run ∈ runsData, run.length = (combinations.map header).length :=
    fun run hr => (hl run hr).trans hlen.symm
  refine (plotRuns_write hne' hp hl').trans ?_
  by_cases hs : 2 ≤ combinations.length ∨ runsData.length ≤ 1
  case pos => rw [readLine_matrix hne' hl' (hlen.symm ▸ hs), if_pos hs, Option.map_some, List.nil_append]
  case neg =>
    have hc := List.length_pos_iff.mpr hne
    have h1 : combinations.length = 1 := by omega
    obtain ⟨c, rfl⟩ := List.length_eq_one_iff.mp h1
    rw [if_neg hs]
    exact congrArg (Option.map Parser.runsData) (readLine_matrix_singleton hl (by omega) [])

theorem roundTrips_iff (hne : combinations ≠ []) (hl : ∀ run ∈ runsData, run.length = combinations.length) :
    RoundTrips combinations runsData ↔ Readable combinations runsData := by
  rw [RoundTrips, plotRuns_results hne hl]
  constructor
  case mp =>
    intro ⟨records, hr, hf⟩
    split at hr
    case isFalse => contradiction
    case isTrue hs =>
      rw [← Option.some.inj hr, List.forall₂_map_right_iff, List.forall₂_same] at hf
      refine ⟨hs, fun run hm => ?_⟩
      by_cases hv : measured run = true
      case pos => exact (records_iff (hl run hm)).mp (hf run (List.mem_filter.mpr ⟨hm, hv⟩))
      case neg =>
        intro i j c _ _ hj
        have ⟨hlt, _⟩ := List.getElem?_eq_some_iff.mp hj
        rw [← hl run hm] at hlt
        simp only [measured, List.any_eq_true, not_exists, not_and] at hv
        have hz := hv run[j] (List.getElem_mem hlt)
        rw [List.getElem?_eq_getElem hlt]
        simpa using hz
  case mpr =>
    intro h
    refine ⟨_, if_pos h.separated, ?_⟩
    rw [List.forall₂_map_right_iff, List.forall₂_same]
    intro run hm
    have hm := (List.mem_filter.mp hm).left
    exact (records_iff (hl run hm)).mpr (h.distinct run hm)

-- Two combinations and three runs, of which one has failed.
theorem roundTrips_iff_two :
    let combinations : List Combination := [⟨1000, 2, .xdp⟩, ⟨1000, 2, .tc⟩]
    let x : Double := .finite false 3 (-1)
    RoundTrips combinations [[[x, x], [x]], [[], []], [[], [x]]] ↔
      Readable combinations [[[x, x], [x]], [[], []], [[], [x]]] :=
  roundTrips_iff (by decide) (by decide)

-- Two runs of a single combination.
theorem not_roundTrips :
    ¬∀ (combinations : List Combination) (runsData : List RunData), combinations ≠ [] →
      (∀ run ∈ runsData, run.length = combinations.length) → RoundTrips combinations runsData := by
  intro h
  have ⟨records, hr, _⟩ := h [⟨1000, 2, .xdp⟩] [[[.finite false 3 (-1)]], [[.finite false 5 (-1)]]] (by decide)
    (by decide)
  rw [plotRuns_results (by decide) (by decide), if_neg (by decide)] at hr
  contradiction

end Benchmark
