import Tabulate.Proofs.Columns
import Mathlib.Data.List.Permutation

/-! Columns that take the texts of several matches. Filling a column for some matches and then for
others is filling it for all of them at once. A joiner puts its separator between all texts from the
first one on that is not empty, so it keeps empty texts behind that one. -/
namespace Tabulate

open Xml (Document Location)

namespace Text

def isNonempty (text : String) : Bool := !text.isEmpty

theorem isNonempty_iff {text : String} : isNonempty text = true ↔ text ≠ "" := by
  simp [isNonempty]

theorem length_intercalate (separator : String) (texts : List String) :
    (separator.intercalate texts).length =
      total (texts.map String.length) + separator.length * (texts.length - 1) := by
  induction texts with
  | nil => simp [total]
  | cons t ts ih =>
    cases ts with
    | nil => simp [total]
    | cons u us =>
      rw [String.intercalate_cons_cons, String.length_append, String.length_append, ih]
      simp only [List.map_cons, total, List.length_cons, Nat.add_sub_cancel, Nat.mul_succ]
      omega

theorem total_lengths_nonempty (texts : List String) :
    total ((texts.filter isNonempty).map String.length) = total (texts.map String.length) := by
  induction texts with
  | nil => rfl
  | cons t ts ih =>
    rw [List.filter_cons]
    split
    · rw [List.map_cons, total, ih, List.map_cons, total]
    · next ht =>
      obtain rfl : t = "" := by simpa [isNonempty] using ht
      rw [ih, List.map_cons, total, String.length_empty, Nat.zero_add]

theorem unseparated_cons (t : String) (ts : List String) :
    "".intercalate (t :: ts) = t ++ "".intercalate ts := by
  cases ts with
  | nil => simp
  | cons u us => rw [String.intercalate_cons_cons, String.append_empty]

theorem unseparated_nonempty (texts : List String) :
    "".intercalate (texts.filter isNonempty) = "".intercalate texts := by
  induction texts with
  | nil => rfl
  | cons t ts ih =>
    rw [List.filter_cons, unseparated_cons]
    split
    · rw [unseparated_cons, ih]
    · next ht =>
      obtain rfl : t = "" := by simpa [isNonempty] using ht
      rw [ih, String.empty_append]

/-- An empty text among others makes one separator more, which the length tells. -/
theorem intercalate_nonempty_iff {separator t : String} {ts : List String} :
    separator.intercalate (t :: ts) = separator.intercalate (t :: ts.filter isNonempty) ↔
      separator = "" ∨ ∀ u ∈ ts, u ≠ "" := by
  constructor
  · intro h
    have hlength := congrArg String.length h
    simp only [length_intercalate, List.map_cons, total, total_lengths_nonempty, List.length_cons,
      Nat.add_sub_cancel, Nat.add_left_cancel_iff] at hlength
    obtain hnone | hpos := Nat.eq_zero_or_pos separator.length
    · exact .inl (String.length_eq_zero_iff.1 hnone)
    · right
      intro u hu
      have hsame := (Nat.eq_of_mul_eq_mul_left hpos hlength).symm
      exact isNonempty_iff.1 (List.length_filter_eq_length_iff.1 hsame u hu)
  · rintro (rfl | hts)
    · rw [unseparated_cons, unseparated_cons, unseparated_nonempty]
    · rw [List.filter_eq_self.2 fun u hu => isNonempty_iff.2 (hts u hu)]

def fromNonempty (texts : List String) : List String := texts.dropWhile String.isEmpty

theorem fromNonempty_cons (t : String) (ts : List String) :
    fromNonempty (t :: ts) = if t = "" then fromNonempty ts else t :: ts := by
  rw [fromNonempty, List.dropWhile_cons]
  simp only [String.isEmpty_iff]
  rfl

theorem intercalate_fromNonempty_iff {separator : String} {texts : List String} :
    separator.intercalate (fromNonempty texts) = separator.intercalate (texts.filter isNonempty) ↔
      separator = "" ∨ ∀ t ∈ fromNonempty texts, t ≠ "" := by
  induction texts with
  | nil => simp [fromNonempty]
  | cons t ts ih =>
    rw [fromNonempty_cons, List.filter_cons]
    by_cases ht : t = ""
    · have hempty : ¬isNonempty t = true := mt isNonempty_iff.1 (not_not_intro ht)
      rw [if_pos ht, if_neg hempty, ih]
    · rw [if_neg ht, if_pos (isNonempty_iff.2 ht), intercalate_nonempty_iff]
      simp [ht]

def appended (separator held text : String) : String :=
  if held.isEmpty then text else held ++ separator ++ text

theorem foldl_appended (separator held : String) (texts : List String) :
    texts.foldl (appended separator) held = separator.intercalate (fromNonempty (held :: texts)) := by
  induction texts generalizing held with
  | nil =>
    rw [List.foldl_nil, fromNonempty_cons]
    split
    · next h => rw [h]; rfl
    · rw [String.intercalate_singleton]
  | cons t ts ih =>
    rw [List.foldl_cons, ih, fromNonempty_cons held]
    by_cases h : held = ""
    · rw [if_pos h, appended, if_pos (String.isEmpty_iff.2 h)]
    · have hne : held ++ separator ++ t ≠ "" := by simp [h]
      rw [if_neg h, appended, if_neg (mt String.isEmpty_iff.1 h), fromNonempty_cons, if_neg hne,
        String.intercalate_cons_append, String.intercalate_cons_cons]

end Text

namespace Record
variable {column separator : String} {rule : FieldRule} {r : Record}

def held (r : Record) (column : String) : String := (r.get? column).join.getD ""

theorem join_eq (column separator : String) (r : Record) (text : String) :
    join column separator r text = r.insert column (some (Text.appended separator (r.held column) text)) := by
  rw [join, held]
  cases r.get? column with
  | none => rfl
  | some value => cases value <;> rfl

theorem held_insert (r : Record) (column text : String) : held (r.insert column (some text)) column = text := by
  rw [held, Dictionary.get?_insert, if_pos rfl]
  rfl

theorem foldl_join (texts : List String) (r : Record) (h : texts ≠ []) :
    texts.foldl (join column separator) r =
      r.insert column (some (texts.foldl (Text.appended separator) (r.held column))) := by
  induction texts generalizing r with
  | nil => exact absurd rfl h
  | cons t ts ih =>
    rw [List.foldl_cons, List.foldl_cons, join_eq]
    by_cases hts : ts = []
    · rw [hts]
      rfl
    · rw [ih _ hts, held_insert, Dictionary.insert_insert]

@[simp] theorem fill_nil (r : Record) (column : String) (rule : FieldRule) : r.fill column rule [] = r := by
  cases rule <;> rfl

theorem fill_joiner (r : Record) (column separator : String) (texts : List String) :
    r.fill column (.joiner separator) texts = texts.foldl (join column separator) r := by
  unfold fill
  cases h : texts.getLast? with
  | none =>
    rw [List.getLast?_eq_none_iff.1 h]
    rfl
  | some text => rfl

def replace (r : Record) (column : String) (value : String → Option String) (texts : List String) : Record :=
  match texts.getLast? with
  | none => r
  | some text => r.insert column (value text)

theorem replace_append (r : Record) (column : String) (value : String → Option String)
    (texts more : List String) :
    (r.replace column value texts).replace column value more = r.replace column value (texts ++ more) := by
  rw [replace, replace, replace, List.getLast?_append]
  cases more.getLast? with
  | none => rfl
  | some text =>
    cases texts.getLast? with
    | none => rfl
    | some first => exact Dictionary.insert_insert ..

/-- All rules but joiners look at the last text alone. -/
theorem fill_cases (rule : FieldRule) :
    (∃ separator, rule = .joiner separator) ∨
      ∃ value, ∀ (r : Record) column texts, r.fill column rule texts = r.replace column value texts := by
  cases rule with
  | joiner separator => exact .inl ⟨separator, rfl⟩
  | plain =>
    refine .inr ⟨some, fun r column texts => ?_⟩
    unfold fill replace
    cases texts.getLast? <;> rfl
  | enumMap table =>
    refine .inr ⟨table.get?, fun r column texts => ?_⟩
    unfold fill replace
    cases texts.getLast? <;> rfl
  | enumType constant =>
    refine .inr ⟨fun _ => some constant, fun r column texts => ?_⟩
    unfold fill replace
    cases texts.getLast? <;> rfl

/-- Filling a column for some texts and then for others fills it for all of them. -/
theorem fill_append (r : Record) (column : String) (rule : FieldRule) (texts more : List String) :
    (r.fill column rule texts).fill column rule more = r.fill column rule (texts ++ more) := by
  obtain ⟨separator, rfl⟩ | ⟨value, hvalue⟩ := fill_cases rule
  · rw [fill_joiner, fill_joiner, fill_joiner, List.foldl_append]
  · rw [hvalue, hvalue, hvalue, replace_append]

/-- Whatever a column holds, a joiner puts the texts behind it. -/
theorem get?_fill_joiner (r : Record) (column separator : String) (texts : List String) :
    (r.fill column (.joiner separator) texts).get? column =
      if texts = [] then r.get? column
      else some (some (separator.intercalate (Text.fromNonempty (r.held column :: texts)))) := by
  rw [fill_joiner]
  split
  · next h => rw [h]; rfl
  · next h => rw [foldl_join texts r h, Dictionary.get?_insert, if_pos rfl, Text.foldl_appended]

end Record

/-- A joiner that fills an empty column puts its separator between the texts of all matches from the
first one on that is not empty. This is the texts that are not empty alone, with the separator between
them, exactly if the separator is empty or no empty text comes behind one that is not. -/
theorem joiner_fills_iff (d : Document) (ls : List Location) (separator : String) {r : Record}
    {column : String} (hr : r.get? column = none) :
    let texts := ls.map d.text
    let filled := r.fill column (.joiner separator) texts
    filled.get? column =
      (if ls = [] then none else some (some (separator.intercalate (Text.fromNonempty texts)))) ∧
    (filled.get? column =
        (if ls = [] then none else some (some (separator.intercalate (texts.filter Text.isNonempty)))) ↔
      separator = "" ∨ ∀ text ∈ Text.fromNonempty texts, text ≠ "") ∧
    (∀ c, c ≠ column → filled.get? c = r.get? c) ∧
    ∀ (t : Record) (more : List Location),
      (t.fill column (.joiner separator) texts).fill column (.joiner separator) (more.map d.text) =
        t.fill column (.joiner separator) ((ls ++ more).map d.text) := by
  intro texts filled
  have hheld : r.held column = "" := by rw [Record.held, hr]; rfl
  have hfilled : filled.get? column =
      if ls = [] then none else some (some (separator.intercalate (Text.fromNonempty texts))) := by
    rw [Record.get?_fill_joiner, hr, hheld, Text.fromNonempty_cons, if_pos rfl]
    simp only [texts, List.map_eq_nil_iff]
  refine ⟨hfilled, ?_, fun c hc => Record.get?_fill hc, fun t more => ?_⟩
  · rw [hfilled, ← Text.intercalate_fromNonempty_iff]
    by_cases hls : ls = []
    · simp [hls, texts, Text.fromNonempty]
    · simp [hls]
  · rw [Record.fill_append, List.map_append]

def paragraphs (texts : List String) : Document :=
  ⟨[.element ⟨none, "a"⟩ [] [] (texts.map fun text => .element ⟨none, "p"⟩ [] [] [.text text])]⟩

theorem joiner_fills_paragraphs :
    Record.empty.get? "c" = none ∧
    (Record.empty.fill "c" (.joiner "; ")
      ([.node [0, 0], .node [0, 1], .node [0, 2]].map (paragraphs [" ", "x", "y\nz"]).text)).get? "c" =
      some (some "x; y z") := by
  have hr : Record.empty.get? "c" = none := rfl
  refine ⟨hr, ?_⟩
  have hfilled := (joiner_fills_iff (paragraphs [" ", "x", "y\nz"]) [.node [0, 0], .node [0, 1], .node [0, 2]]
    "; " hr).1
  exact hfilled.trans (by decide +kernel)

/-- Paragraphs without text behind one with text leave two separators in a row, and one at the end. -/
theorem empty_texts_separated :
    let d := paragraphs ["x", "", "y", ""]
    let found : List Location := [.node [0, 0], .node [0, 1], .node [0, 2], .node [0, 3]]
    d.resolve .empty "p" d.element = .ok found ∧
    (Record.empty.fill "c" (.joiner ";") (found.map d.text)).get? "c" = some (some "x;;y;") ∧
    ";".intercalate ((found.map d.text).filter Text.isNonempty) = "x;y" := by
  intro d found
  have hfollow : (Path.mk false [.child (.name (.named none "p")) []]).follow d .empty d.element = found := by
    cbv
  have hresolve : d.resolve .empty "p" d.element =
      .ok ((Path.mk false [.child (.name (.named none "p")) []]).follow d .empty d.element) := by
    rfl
  refine ⟨hresolve.trans (congrArg _ hfollow), ?_, ?_⟩
  · decide +kernel
  · decide +kernel

end Tabulate
