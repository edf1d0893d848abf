import Mathlib.Data.List.Basic
import Mathlib.Data.List.DropRight

-- Texts in comma-separated values: what a writer of such files makes of rows of fields, and the functions on texts that
-- read it back.
namespace Csv

abbrev Text := List Char

def isSpace (c : Char) : Bool :=
  c ∈ [' ', '\t', '\n', '\r', '\x0b', '\x0c', '\x1c', '\x1d', '\x1e', '\x1f', '\u0085', '\u00a0', '\u1680', '\u2028',
    '\u2029', '\u202f', '\u205f', '\u3000'] || '\u2000' ≤ c && c ≤ '\u200a'

def strip (t : Text) : Text :=
  (t.dropWhile isSpace).rdropWhile isSpace

-- The pieces between the occurrences of `c`.
def split (c : Char) (t : Text) : List Text :=
  t.splitOn c

def join (c : Char) (ts : List Text) : Text :=
  [c].intercalate ts

def special (c : Char) : Bool :=
  c = ',' || c = '"' || c = '\r' || c = '\n'

def quote (t : Text) : Text :=
  '"' :: t.flatMap (fun c => if c = '"' then ['"', '"'] else [c]) ++ ['"']

-- A field is quoted only where it has to be, which a row of nothing but one empty field is among.
def record (row : List Text) : Text :=
  if row = [[]] then quote [] else join ',' (row.map fun t => if t.any special then quote t else t)

def write (rows : List (List Text)) : Text :=
  rows.flatMap fun row => record row ++ ['\r', '\n']

-- What is read of a file that is opened as a text.
def universalNewlines : Text → Text
  | '\r' :: '\n' :: t => '\n' :: universalNewlines t
  | '\r' :: t         => '\n' :: universalNewlines t
  | c :: t            => c :: universalNewlines t
  | []                => []

-- The fields that no function changes.
def Plain (t : Text) : Prop :=
  ∀ c ∈ t, isSpace c = false ∧ special c = false

-- What is between the commas of a record of plain fields.
def cells (row : List Text) : List Text :=
  if row = [[]] then [quote []] else row

variable {c : Char} {t : Text} {ts row : List Text} {rows : List (List Text)}

-- Texts that end at the first `c`.
theorem append_cons_inj {s u v : Text} (hs : c ∉ s) (ht : c ∉ t) (h : s ++ c :: u = t ++ c :: v) : s = t ∧ u = v := by
  induction s generalizing t
  case nil =>
    cases t with
    | nil      => exact ⟨rfl, (List.cons.inj h).right⟩
    | cons b t => exact absurd ((List.cons.inj h).left ▸ List.mem_cons_self) ht
  case cons a s hi =>
    cases t with
    | nil      => exact absurd ((List.cons.inj h).left ▸ List.mem_cons_self) hs
    | cons b t =>
      have ⟨he, h⟩ := List.cons.inj h
      have ⟨hst, huv⟩ := hi (mt (List.mem_cons_of_mem _) hs) (mt (List.mem_cons_of_mem _) ht) h
      exact ⟨by rw [he, hst], huv⟩

theorem strip_eq_self (h : ∀ c ∈ t, isSpace c = false) : strip t = t := by
  have hd : t.dropWhile isSpace = t := by
    rw [List.dropWhile_eq_self_iff]
    intro hl
    simp [h _ (List.getElem_mem hl)]
  rw [strip, hd, List.rdropWhile_eq_self_iff]
  intro hl
  simp [h _ (List.getLast_mem hl)]

theorem Plain.strip (h : Plain t) : strip t = t :=
  strip_eq_self fun c hc => (h c hc).left

theorem Plain.any_special (h : Plain t) : t.any special = false := by
  rw [List.any_eq_false]
  intro c hc
  simp [(h c hc).right]

theorem Plain.not_mem (h : Plain t) (hc : special c = true) : c ∉ t := by
  intro hm
  simp [(h c hm).right] at hc

theorem cells_cons_ne (h : row ≠ [[]]) : cells row = row :=
  if_neg h

theorem record_plain (h : ∀ t ∈ row, Plain t) : record row = join ',' (cells row) := by
  rw [record, cells]
  split
  case isTrue => rfl
  case isFalse =>
    congr 1
    conv_rhs => rw [← List.map_id row]
    refine List.map_congr_left fun t ht => ?_
    simp [(h t ht).any_special]

theorem mem_join {s : Char} (h : c ∈ join s ts) : c = s ∨ ∃ t ∈ ts, c ∈ t := by
  induction ts
  case nil => simp [join] at h
  case cons t ts hi =>
    cases ts with
    | nil => exact .inr ⟨t, by simp, by simpa [join] using h⟩
    | cons u us =>
      simp only [join, List.intercalate_cons_cons, List.append_assoc, List.mem_append, List.mem_singleton] at h
      rcases h with h | h | h
      · exact .inr ⟨t, by simp, h⟩
      · exact .inl h
      · rcases hi h with h | ⟨x, hx, hc⟩
        · exact .inl h
        · exact .inr ⟨x, List.mem_cons_of_mem _ hx, hc⟩

-- Every row of plain fields is a line that reads back as its cells.
structure Line (row : List Text) : Prop where
  plain    : ∀ t ∈ row, Plain t
  nonempty : row ≠ []

namespace Line

variable (h : Line row)
include h

theorem isSpace_cells : ∀ t ∈ cells row, ∀ c ∈ t, isSpace c = false := by
  rw [cells]
  split
  case isTrue  =>
    intro t ht
    rw [List.mem_singleton.mp ht]
    exact List.forall_iff_forall_mem.mp (by decide)
  case isFalse => exact fun t ht c hc => (h.plain t ht c hc).left

theorem cells_ne_nil : cells row ≠ [] := by
  rw [cells]
  split
  case isTrue => simp
  case isFalse => exact h.nonempty

theorem comma_not_mem : ∀ t ∈ cells row, ',' ∉ t := by
  rw [cells]
  split
  case isTrue => decide
  case isFalse => exact fun t ht => (h.plain t ht).not_mem (by decide)

theorem split_record : split ',' (record row) = cells row := by
  rw [record_plain h.plain, split, join, List.splitOn_intercalate ',' h.comma_not_mem h.cells_ne_nil]

theorem isSpace_record : ∀ c ∈ record row, isSpace c = false := by
  intro c hc
  rw [record_plain h.plain] at hc
  rcases mem_join hc with rfl | ⟨t, ht, hc⟩
  · decide
  · exact h.isSpace_cells t ht c hc

theorem record_ne_nil : record row ≠ [] := by
  intro h0
  have hs := h.split_record
  rw [h0, split, List.splitOn_nil, cells] at hs
  split at hs
  case isTrue => contradiction
  case isFalse hne => exact hne hs.symm

theorem strip_record : strip (record row) = record row :=
  strip_eq_self h.isSpace_record

end Line

theorem universalNewlines_append (h : '\r' ∉ t) (u : Text) :
    universalNewlines (t ++ '\r' :: '\n' :: u) = t ++ '\n' :: universalNewlines u := by
  induction t
  case nil => rfl
  case cons c t hi =>
    have hc : c ≠ '\r' := fun he => h (by simp [he])
    rw [List.cons_append, universalNewlines.eq_3 _ _ (by simp [hc]) (by simp [hc]), hi fun hm => h (by simp [hm])]
    rfl

theorem universalNewlines_write (h : ∀ row ∈ rows, Line row) (hne : rows ≠ []) :
    universalNewlines (write rows) = join '\n' (rows.map record) ++ ['\n'] := by
  induction rows
  case nil => contradiction
  case cons row rows hi =>
    have hr : '\r' ∉ record row := by
      intro hm
      have hs := (h row (by simp)).isSpace_record _ hm
      contradiction
    have hw : write (row :: rows) = record row ++ '\r' :: '\n' :: write rows := by simp [write]
    rw [hw, universalNewlines_append hr]
    cases rows with
    | nil => simp [join, write, universalNewlines]
    | cons row' rows =>
      rw [hi (fun r hr => h r (List.mem_cons_of_mem _ hr)) (by simp)]
      simp [join, List.intercalate_cons_cons]

-- A text that strip leaves alone at both ends, and a newline that it removes.
structure Trimmed (t : Text) : Prop where
  first : ∃ c u, t = c :: u ∧ isSpace c = false
  last  : ∃ u c, t = u ++ [c] ∧ isSpace c = false

theorem Trimmed.of_isSpace (h : ∀ c ∈ t, isSpace c = false) (hne : t ≠ []) : Trimmed t where
  first := by
    obtain ⟨c, u, rfl⟩ := List.exists_cons_of_ne_nil hne
    exact ⟨c, u, rfl, h c (by simp)⟩
  last :=
    ⟨t.dropLast, t.getLast hne, (List.dropLast_append_getLast hne).symm, h _ (List.getLast_mem hne)⟩

theorem Trimmed.strip_newline (h : Trimmed t) : strip (t ++ ['\n']) = t := by
  have hd : (t ++ ['\n']).dropWhile isSpace = t ++ ['\n'] := by
    have ⟨c, u, ht, hc⟩ := h.first
    rw [ht, List.cons_append, List.dropWhile_cons_of_neg (by simp [hc])]
  have ⟨u, c, ht, hc⟩ := h.last
  rw [strip, hd, List.rdropWhile_concat_pos _ _ _ (by decide), ht, List.rdropWhile_concat_neg _ _ _ (by simp [hc])]

theorem Trimmed.join (h : ∀ t ∈ ts, Trimmed t) (hne : ts ≠ []) : Trimmed (join c ts) := by
  induction ts
  case nil => contradiction
  case cons t ts hi =>
    cases ts with
    | nil => simpa [Csv.join] using h t (by simp)
    | cons u us =>
      have ht := h t (by simp)
      have hr := hi (fun x hx => h x (List.mem_cons_of_mem _ hx)) (by simp)
      have ⟨a, x, hx, ha⟩ := ht.first
      have ⟨y, b, hy, hb⟩ := hr.last
      have hj : Csv.join c (t :: u :: us) = t ++ c :: Csv.join c (u :: us) := by
        simp [Csv.join, List.intercalate_cons_cons]
      rw [hj]
      exact ⟨⟨a, x ++ c :: Csv.join c (u :: us), by rw [hx, List.cons_append], ha⟩,
        ⟨t ++ c :: y, b, by rw [hy, List.append_assoc, List.cons_append], hb⟩⟩

-- The lines of the file that is read are the records of the rows that were written.
theorem split_write (h : ∀ row ∈ rows, Line row) (hne : rows ≠ []) :
    split '\n' (strip (universalNewlines (write rows))) = rows.map record := by
  have ht : ∀ t ∈ rows.map record, Trimmed t := by
    intro t ht
    have ⟨row, hr, he⟩ := List.mem_map.mp ht
    exact he ▸ .of_isSpace (h row hr).isSpace_record (h row hr).record_ne_nil
  have hn : ∀ t ∈ rows.map record, '\n' ∉ t := by
    intro t ht hm
    have ⟨row, hr, he⟩ := List.mem_map.mp ht
    have hs := (h row hr).isSpace_record _ (he ▸ hm)
    contradiction
  have hm : rows.map record ≠ [] := by simpa using hne
  rw [universalNewlines_write h hne, (Trimmed.join ht hm).strip_newline, split, join,
    List.splitOn_intercalate '\n' hn hm]

end Csv
