import Tabulate.Database.Connection
import Tabulate.Proofs.Arrangements

/-! Reading statements. A name in quotes ends at the first quote that no other follows, so the text of a statement
is read as the table, the columns and the placeholders that it was written for, whatever the names are. -/
namespace Tabulate

namespace Statement

/-! ### Names in quotes -/

def closeName? : List Char → Option (List Char × List Char)
  | [] => none
  | '"' :: '"' :: cs => (closeName? cs).map fun r => ('"' :: r.1, r.2)
  | '"' :: cs => some ([], cs)
  | c :: cs => (closeName? cs).map fun r => (c :: r.1, r.2)

def quotedName? : List Char → Option (String × List Char)
  | '"' :: cs => (closeName? cs).map fun r => (String.ofList r.1, r.2)
  | _ => none

def doubled (name : List Char) : List Char := name.flatMap fun c => if c = '"' then ['"', '"'] else [c]

section Names
variable {cs name rest : List Char}

theorem doubled_quote (name : List Char) : doubled ('"' :: name) = '"' :: '"' :: doubled name := rfl

theorem doubled_of_ne {c : Char} (hc : c ≠ '"') (name : List Char) : doubled (c :: name) = c :: doubled name := by
  simp [doubled, hc]

theorem toList_quoteName (name : String) : (quoteName name).toList = '"' :: (doubled name.toList ++ ['"']) := by
  simp [quoteName, doubled]

theorem closeName?_doubled (hrest : rest.head? ≠ some '"') :
    closeName? (doubled name ++ '"' :: rest) = some (name, rest) := by
  induction name with
  | nil =>
    cases rest with
    | nil => rfl
    | cons c rest =>
      have hc : c ≠ '"' := fun h => hrest (congrArg some h)
      simp [doubled, closeName?, hc]
  | cons c name ih =>
    by_cases hc : c = '"'
    · subst hc
      rw [doubled_quote, List.cons_append, List.cons_append, closeName?, ih]
      rfl
    · rw [doubled_of_ne hc, List.cons_append]
      simp [closeName?, hc, ih]

theorem eq_of_closeName? (h : closeName? cs = some (name, rest)) :
    cs = doubled name ++ '"' :: rest ∧ rest.head? ≠ some '"' := by
  fun_induction closeName? cs generalizing name with
  | case1 => cases h
  | case2 cs ih =>
    obtain ⟨r, hr, hname⟩ := Option.map_eq_some_iff.1 h
    cases hname
    have hread := ih hr
    exact ⟨congrArg (fun cs => '"' :: '"' :: cs) hread.1, hread.2⟩
  | case3 cs hno =>
    cases h
    refine ⟨rfl, fun hhead => ?_⟩
    obtain ⟨more, hmore⟩ := List.head?_eq_some_iff.1 hhead
    exact hno more hmore
  | case4 c cs _ hc ih =>
    obtain ⟨r, hr, hname⟩ := Option.map_eq_some_iff.1 h
    cases hname
    have hread := ih hr
    rw [doubled_of_ne fun h => hc h, List.cons_append]
    exact ⟨congrArg (c :: ·) hread.1, hread.2⟩

/-- The texts that begin with a name in quotes are those that begin as it is written, with no quote behind it. -/
theorem quotedName?_eq_some_iff {name : String} : quotedName? cs = some (name, rest) ↔
    cs = (quoteName name).toList ++ rest ∧ rest.head? ≠ some '"' := by
  rw [toList_quoteName]
  constructor
  · intro h
    unfold quotedName? at h
    split at h
    · obtain ⟨r, hr, hname⟩ := Option.map_eq_some_iff.1 h
      cases hname
      have hread := eq_of_closeName? hr
      rw [hread.1]
      simp [hread.2]
    · cases h
  · rintro ⟨rfl, hrest⟩
    simp [quotedName?, closeName?_doubled hrest]

theorem length_of_quotedName? {name : String} (h : quotedName? cs = some (name, rest)) :
    rest.length < cs.length := by
  rw [(quotedName?_eq_some_iff.1 h).1, toList_quoteName, List.length_append, List.length_cons]
  omega

end Names

/-! ### Tokens -/

/-- A part of a statement: a bare word, a name in quotes or a sign. -/
inductive Token where
  | word (text : String)
  | name (text : String)
  | sign (c : Char)
deriving DecidableEq, Repr

def tokens? (cs : List Char) : Option (List Token) :=
  match cs with
  | [] => some []
  | c :: cs =>
    match _h : quotedName? (c :: cs) with
    | some (name, rest) => (tokens? rest).map (.name name :: ·)
    | none =>
      if c.isWhitespace then tokens? cs
      else if c.isAlpha then
        (tokens? (cs.dropWhile Char.isAlpha)).map (.word (String.ofList (c :: cs.takeWhile Char.isAlpha)) :: ·)
      else if ['(', ')', ',', '?'].contains c then (tokens? cs).map (.sign c :: ·)
      else none
termination_by cs.length
decreasing_by
  · exact length_of_quotedName? _h
  · exact Nat.lt_succ_self _
  · exact Nat.lt_succ_of_le (List.dropWhile_sublist _).length_le
  · exact Nat.lt_succ_self _

theorem tokens?_cons_of_ne {c : Char} (hc : c ≠ '"') (cs : List Char) : tokens? (c :: cs) =
    if c.isWhitespace then tokens? cs
    else if c.isAlpha then
      (tokens? (cs.dropWhile Char.isAlpha)).map (.word (String.ofList (c :: cs.takeWhile Char.isAlpha)) :: ·)
    else if ['(', ')', ',', '?'].contains c then (tokens? cs).map (.sign c :: ·)
    else none := by
  have hnone : quotedName? (c :: cs) = none := by simp [quotedName?, hc]
  rw [tokens?]
  split
  · next hname => cases hname.symm.trans hnone
  · rfl

/-- A text is read as tokens if what follows it is as it should be. -/
def Reads (follows : List Char → Prop) (text : String) (ts : List Token) : Prop :=
  ∀ rest, follows rest → tokens? (text.toList ++ rest) = (tokens? rest).map (ts ++ ·)

def Anything (_ : List Char) : Prop := True

def Apart (cs : List Char) : Prop := ∀ c ∈ cs.head?, c ≠ '"' ∧ c.isAlpha = false

section Reads
variable {P Q : List Char → Prop} {a b : String} {ts us : List Token}

theorem apart_cons {c : Char} (hc : c ≠ '"' ∧ c.isAlpha = false) (cs : List Char) : Apart (c :: cs) := by
  intro d hd
  cases hd
  exact hc

theorem Reads.append (ha : Reads P a ts) (hb : Reads Q b us) (h : ∀ rest, Q rest → P (b.toList ++ rest)) :
    Reads Q (a ++ b) (ts ++ us) := by
  intro rest hrest
  rw [String.toList_append, List.append_assoc, ha _ (h rest hrest), hb rest hrest, Option.map_map]
  simp only [Function.comp_def, List.append_assoc]

theorem Reads.follow (ha : Reads Anything a ts) (hb : Reads Q b us) : Reads Q (a ++ b) (ts ++ us) :=
  ha.append hb fun _ _ => trivial

theorem Reads.weaken (h : Reads Anything a ts) : Reads P a ts := fun rest _ => h rest trivial

theorem quoteName_reads (name : String) : Reads Apart (quoteName name) [.name name] := by
  intro rest hrest
  have hhead : rest.head? ≠ some '"' := fun h => (hrest '"' h).1 rfl
  have hread : quotedName? ((quoteName name).toList ++ rest) = some (name, rest) :=
    quotedName?_eq_some_iff.2 ⟨rfl, hhead⟩
  rw [toList_quoteName, List.cons_append] at hread ⊢
  rw [tokens?]
  split
  · next hname =>
    cases hname.symm.trans hread
    rfl
  · next hnone => cases hnone.symm.trans hread

theorem Apart.word {cs : List Char} (h : Apart cs) :
    cs.takeWhile Char.isAlpha = [] ∧ cs.dropWhile Char.isAlpha = cs := by
  cases cs with
  | nil => exact ⟨rfl, rfl⟩
  | cons c cs => simp [(h c rfl).2]

theorem type_reads (type : ColumnType) : Reads Apart type.sql [.word type.sql] := by
  intro rest hrest
  cases type <;> simp [ColumnType.sql, tokens?_cons_of_ne, Char.isWhitespace, hrest.word]

/-- Members with commas between them. -/
theorem intercalate_reads {α : Type} {separator : String} (hseparator : Reads Anything separator [.sign ','])
    (hapart : ∀ rest, Apart (separator.toList ++ rest)) (text : α → String) (tokens : α → List Token) {xs : List α}
    (h : ∀ x ∈ xs, Reads Apart (text x) (tokens x)) :
    Reads Apart (separator.intercalate (xs.map text)) ([Token.sign ','].intercalate (xs.map tokens)) := by
  induction xs with
  | nil => exact fun rest _ => by simp
  | cons x xs ih =>
    cases xs with
    | nil => simpa using h x
    | cons y xs =>
      rw [List.map_cons, List.map_cons, List.map_cons, List.map_cons, String.intercalate_cons_cons,
        List.intercalate_cons_cons]
      have hlist := ih fun z hz => h z (List.mem_cons_of_mem x hz)
      have hfirst := (h x List.mem_cons_self).append hseparator fun rest _ => hapart rest
      exact hfirst.follow hlist

end Reads

/-! ### Statements -/

def commaList? {α : Type} (item? : List Token → Option (α × List Token)) :
    Nat → List Token → Option (List α × List Token)
  | 0, _ => none
  | fuel + 1, ts =>
    match item? ts with
    | none => none
    | some (a, .sign ',' :: ts) => (commaList? item? fuel ts).map fun r => (a :: r.1, r.2)
    | some (a, ts) => some ([a], ts)

def members {α : Type} (item? : List Token → Option (α × List Token)) (ts : List Token) : List α × List Token :=
  (commaList? item? (ts.length + 1) ts).getD ([], ts)

def bracketed? {α : Type} (item? : List Token → Option (α × List Token)) :
    List Token → Option (List α × List Token)
  | .sign '(' :: ts =>
    match members item? ts with
    | (as, .sign ')' :: rest) => some (as, rest)
    | _ => none
  | _ => none

section Lists
variable {α : Type} {item? : List Token → Option (α × List Token)} {tokens : α → List Token} {xs : List α}
  {rest : List Token}

def Ends (ts : List Token) : Prop := ∀ t ∈ ts.head?, ∃ c, t = .sign c

theorem commaList?_intercalate (hitem : ∀ x ∈ xs, ∀ rest, Ends rest → item? (tokens x ++ rest) = some (x, rest))
    (hne : xs ≠ []) (hrest : Ends rest) (hcomma : rest.head? ≠ some (.sign ',')) {fuel : Nat}
    (hfuel : xs.length ≤ fuel) :
    commaList? item? fuel ([Token.sign ','].intercalate (xs.map tokens) ++ rest) = some (xs, rest) := by
  induction xs generalizing fuel with
  | nil => exact absurd rfl hne
  | cons x xs ih =>
    obtain _ | fuel := fuel
    · cases hfuel
    cases xs with
    | nil =>
      have hx := hitem x List.mem_cons_self rest hrest
      rw [List.map_singleton, List.intercalate_singleton, commaList?, hx]
      split
      · next h => cases h
      · next h =>
        cases h
        exact absurd rfl hcomma
      · next h =>
        cases h
        rfl
    | cons y xs =>
      have hmore : Ends (.sign ',' :: ([Token.sign ','].intercalate ((y :: xs).map tokens) ++ rest)) := by
        intro t ht
        cases ht
        exact ⟨',', rfl⟩
      have hx := hitem x List.mem_cons_self _ hmore
      have hlist := ih (fun z hz => hitem z (List.mem_cons_of_mem x hz)) (List.cons_ne_nil y xs)
        (Nat.le_of_succ_le_succ hfuel)
      rw [List.map_cons] at hlist hx ⊢
      rw [List.map_cons, List.intercalate_cons_cons, List.append_assoc, List.append_assoc, List.singleton_append,
        commaList?, hx]
      simp only [hlist, Option.map_some]

theorem length_le_intercalate (separator : Token) (lists : List (List Token)) :
    lists.length ≤ ([separator].intercalate lists).length + 1 := by
  induction lists with
  | nil => exact Nat.zero_le _
  | cons ts lists ih =>
    cases lists with
    | nil => simp
    | cons us lists =>
      rw [List.intercalate_cons_cons, List.length_append, List.length_append, List.length_cons,
        List.length_singleton]
      omega

theorem members_intercalate (hitem : ∀ x ∈ xs, ∀ rest, Ends rest → item? (tokens x ++ rest) = some (x, rest))
    (hnone : item? rest = none) (hrest : Ends rest) (hcomma : rest.head? ≠ some (.sign ',')) :
    members item? ([Token.sign ','].intercalate (xs.map tokens) ++ rest) = (xs, rest) := by
  by_cases hxs : xs = []
  · subst hxs
    simp [members, commaList?, hnone]
  · have hlength := length_le_intercalate (.sign ',') (xs.map tokens)
    rw [List.length_map] at hlength
    rw [members, commaList?_intercalate hitem hxs hrest hcomma (by rw [List.length_append]; omega)]
    rfl

theorem bracketed?_intercalate (hitem : ∀ x ∈ xs, ∀ rest, Ends rest → item? (tokens x ++ rest) = some (x, rest))
    (hnone : ∀ rest, item? (.sign ')' :: rest) = none) :
    bracketed? item? (.sign '(' :: ([Token.sign ','].intercalate (xs.map tokens) ++ .sign ')' :: rest)) =
      some (xs, rest) := by
  have hends : Ends (.sign ')' :: rest) := by
    intro t ht
    cases ht
    exact ⟨')', rfl⟩
  rw [bracketed?, members_intercalate hitem (hnone rest) hends (by simp)]
  rfl

end Lists

structure Insertion where
  table : String
  columns : List String
  rows : List Nat
deriving DecidableEq, Repr

def name? : List Token → Option (String × List Token)
  | .name n :: ts => some (n, ts)
  | _ => none

def placeholder? : List Token → Option (Unit × List Token)
  | .sign '?' :: ts => some ((), ts)
  | _ => none

def Insertion.ofTokens? : List Token → Option Insertion
  | .word "INSERT" :: .word "INTO" :: .name table :: ts =>
    match bracketed? name? ts with
    | some (columns, .word "VALUES" :: ts) =>
      match members (bracketed? placeholder?) ts with
      | (rows, []) => some ⟨table, columns, rows.map List.length⟩
      | _ => none
    | _ => none
  | _ => none

def Insertion.ofText? (text : String) : Option Insertion := (tokens? text.toList).bind ofTokens?

structure Creation where
  table : String
  columns : List Column
deriving DecidableEq, Repr

def type? (word : String) : Option ColumnType := [.text, .integer, .float, .blob].find? (·.sql = word)

def column? : List Token → Option (Column × List Token)
  | .name n :: .word type :: .word "PRIMARY" :: .word "KEY" :: ts => (type? type).map (⟨n, ·, true⟩, ts)
  | .name n :: .word type :: ts => (type? type).map (⟨n, ·, false⟩, ts)
  | _ => none

def Creation.ofTokens? : List Token → Option Creation
  | .word "CREATE" :: .word "TABLE" :: .name table :: ts =>
    match bracketed? column? ts with
    | some (columns, []) => some ⟨table, columns⟩
    | _ => none
  | _ => none

def Creation.ofText? (text : String) : Option Creation := (tokens? text.toList).bind ofTokens?

/-! ### Statements as they are written -/

def groupText (row : List Unit) : String := "(" ++ ", ".intercalate (row.map fun _ => "?") ++ ")"

def groupTokens (row : List Unit) : List Token :=
  [.sign '('] ++ [Token.sign ','].intercalate (row.map fun _ => [.sign '?']) ++ [.sign ')']

def columnTokens (c : Column) : List Token :=
  [.name c.name] ++ [.word c.type.sql] ++ if c.primaryKey then [.word "PRIMARY", .word "KEY"] else []

theorem comma_reads : Reads Anything ", " [.sign ','] := by
  intro rest _
  simp [tokens?_cons_of_ne, Char.isWhitespace]

theorem line_reads : Reads Anything ",\n" [.sign ','] := by
  intro rest _
  simp [tokens?_cons_of_ne, Char.isWhitespace]

theorem groupText_reads (row : List Unit) : Reads Anything (groupText row) (groupTokens row) := by
  have hopen : Reads Anything "(" [.sign '('] := fun rest _ => by simp [tokens?_cons_of_ne, Char.isWhitespace]
  have hclose : Reads Anything ")" [.sign ')'] := fun rest _ => by simp [tokens?_cons_of_ne, Char.isWhitespace]
  have hmark : Reads Anything "?" [.sign '?'] := fun rest _ => by simp [tokens?_cons_of_ne, Char.isWhitespace]
  have hlist : Reads Apart (", ".intercalate (row.map fun _ => "?")) _ :=
    intercalate_reads comma_reads (fun rest => apart_cons (by decide) _) (fun _ => "?") (fun _ => [.sign '?'])
      fun _ _ => hmark.weaken
  exact (hopen.follow hlist).append hclose fun rest _ => apart_cons (by decide) rest

theorem columnText_reads (c : Column) : Reads Apart (columnText c) (columnTokens c) := by
  have hindent : Reads Anything "   " [] := fun rest _ => by simp [tokens?_cons_of_ne, Char.isWhitespace]
  have hblank : Reads Anything " " [] := fun rest _ => by simp [tokens?_cons_of_ne, Char.isWhitespace]
  have hname : Reads Apart ("   " ++ quoteName c.name) [.name c.name] := hindent.follow (quoteName_reads c.name)
  have htype : Reads Apart ("   " ++ quoteName c.name ++ " " ++ c.type.sql) ([.name c.name] ++ [.word c.type.sql]) :=
    (hname.append hblank fun rest _ => apart_cons (by decide) rest).follow (type_reads c.type)
  rw [columnText, columnTokens]
  cases c.primaryKey with
  | false => simpa using htype
  | true =>
    refine htype.append (fun rest hrest => ?_) fun rest _ => apart_cons (by decide) _
    simp [tokens?_cons_of_ne, Char.isWhitespace, hrest.word, Function.comp_def]

theorem tokens?_of_reads {text : String} {ts : List Token} (h : Reads Apart text ts) :
    tokens? text.toList = some ts := by
  have hend := h [] nofun
  rw [List.append_nil] at hend
  rw [hend, tokens?]
  simp

theorem tokens?_insert (table : String) (columns : List String) (rows : Nat) :
    tokens? (insert table columns rows).toList = some ([Token.word "INSERT", Token.word "INTO"] ++
      [Token.name table] ++ [Token.sign '('] ++ [Token.sign ','].intercalate (columns.map fun n => [Token.name n]) ++
      [Token.sign ')', Token.word "VALUES"] ++
      [Token.sign ','].intercalate ((List.replicate rows (List.replicate columns.length ())).map groupTokens)) := by
  have hinto : Reads Anything "INSERT INTO " [.word "INSERT", .word "INTO"] := by
    intro rest _
    simp [tokens?_cons_of_ne, Char.isWhitespace, Function.comp_def]
  have hopen : Reads Anything " (" [.sign '('] := fun rest _ => by simp [tokens?_cons_of_ne, Char.isWhitespace]
  have hvalues : Reads Anything ") VALUES " [.sign ')', .word "VALUES"] := by
    intro rest _
    simp [tokens?_cons_of_ne, Char.isWhitespace, Function.comp_def]
  have hnames : Reads Apart (", ".intercalate (columns.map quoteName)) _ :=
    intercalate_reads comma_reads (fun _ => apart_cons (by decide) _) quoteName (fun n => [.name n])
      fun n _ => quoteName_reads n
  have hgroups : Reads Apart (", ".intercalate
      ((List.replicate rows (List.replicate columns.length ())).map groupText)) _ :=
    intercalate_reads comma_reads (fun _ => apart_cons (by decide) _) groupText groupTokens
      fun row _ => (groupText_reads row).weaken
  have hplaceholders : List.replicate rows (placeholders columns.length) =
      (List.replicate rows (List.replicate columns.length ())).map groupText := by
    rw [List.map_replicate, groupText, List.map_replicate]
    rfl
  have htext : insert table columns rows = "INSERT INTO " ++ quoteName table ++ " (" ++
      ", ".intercalate (columns.map quoteName) ++ ") VALUES " ++
      ", ".intercalate ((List.replicate rows (List.replicate columns.length ())).map groupText) := by
    rw [← hplaceholders]
    rfl
  rw [htext]
  refine tokens?_of_reads (Reads.follow (Reads.append (Reads.follow (Reads.append
    (hinto.follow (quoteName_reads table)) hopen ?_) hnames) hvalues ?_) hgroups)
  · exact fun rest _ => apart_cons (by decide) _
  · exact fun rest _ => apart_cons (by decide) _

theorem tokens?_createTable (table : String) (columns : List Column) :
    tokens? (createTable table columns).toList = some ([Token.word "CREATE", Token.word "TABLE"] ++
      [Token.name table] ++ [Token.sign '('] ++ [Token.sign ','].intercalate (columns.map columnTokens) ++
      [Token.sign ')']) := by
  have hcreate : Reads Anything "CREATE TABLE " [.word "CREATE", .word "TABLE"] := by
    intro rest _
    simp [tokens?_cons_of_ne, Char.isWhitespace, Function.comp_def]
  have hopen : Reads Anything " (\n" [.sign '('] := fun rest _ => by simp [tokens?_cons_of_ne, Char.isWhitespace]
  have hclose : Reads Anything "\n)" [.sign ')'] := fun rest _ => by simp [tokens?_cons_of_ne, Char.isWhitespace]
  have hcolumns : Reads Apart (",\n".intercalate (columns.map columnText)) _ :=
    intercalate_reads line_reads (fun _ => apart_cons (by decide) _) columnText columnTokens
      fun c _ => columnText_reads c
  have htext : createTable table columns = "CREATE TABLE " ++ quoteName table ++ " (\n" ++
      ",\n".intercalate (columns.map columnText) ++ "\n)" := rfl
  rw [htext]
  refine tokens?_of_reads (Reads.append (Reads.follow (Reads.append
    (hcreate.follow (quoteName_reads table)) hopen ?_) hcolumns) hclose ?_).weaken
  · exact fun rest _ => apart_cons (by decide) _
  · exact fun rest _ => apart_cons (by decide) _

/-- An insertion is read as what it was written for. -/
theorem insertion_read (table : String) (columns : List String) (rows : Nat) :
    Insertion.ofText? (insert table columns rows) =
      some ⟨table, columns, List.replicate rows columns.length⟩ := by
  have hnames (rest : List Token) : bracketed? name? (.sign '(' ::
      ([Token.sign ','].intercalate (columns.map fun n => [.name n]) ++ .sign ')' :: rest)) = some (columns, rest) :=
    bracketed?_intercalate (fun _ _ _ _ => rfl) fun _ => rfl
  have hgroup (row : List Unit) (rest : List Token) :
      bracketed? placeholder? (groupTokens row ++ rest) = some (row, rest) := by
    rw [groupTokens, List.append_assoc, List.append_assoc]
    exact bracketed?_intercalate (fun _ _ _ _ => rfl) fun _ => rfl
  have hgroups : members (bracketed? placeholder?) ([Token.sign ','].intercalate
      ((List.replicate rows (List.replicate columns.length ())).map groupTokens) ++ []) =
        (List.replicate rows (List.replicate columns.length ()), []) :=
    members_intercalate (fun row _ rest _ => hgroup row rest) rfl nofun nofun
  rw [List.append_nil] at hgroups
  rw [Insertion.ofText?, tokens?_insert, Option.bind_some]
  simp only [List.append_assoc, List.cons_append, List.nil_append, Insertion.ofTokens?, hnames, hgroups]
  rw [List.map_replicate, List.length_replicate]

theorem type?_sql (type : ColumnType) : type? type.sql = some type := by cases type <;> rfl

theorem column?_columnTokens (c : Column) {rest : List Token} (hrest : Ends rest) :
    column? (columnTokens c ++ rest) = some (c, rest) := by
  obtain ⟨name, type, key⟩ := c
  cases key with
  | true => simp [columnTokens, column?, type?_sql]
  | false =>
    simp only [columnTokens, Bool.false_eq_true, if_false, List.append_nil, List.cons_append, List.nil_append]
    unfold column?
    split
    · next h =>
      cases h
      obtain ⟨c, hc⟩ := hrest _ rfl
      cases hc
    · next h =>
      cases h
      rw [type?_sql]
      rfl
    · next hno => exact absurd rfl (hno _ _ _)

/-- A creation is read as the table and the columns that it was written for. -/
theorem creation_read (table : String) (columns : List Column) :
    Creation.ofText? (createTable table columns) = some ⟨table, columns⟩ := by
  have hcolumns (rest : List Token) : bracketed? column? (.sign '(' ::
      ([Token.sign ','].intercalate (columns.map columnTokens) ++ .sign ')' :: rest)) = some (columns, rest) :=
    bracketed?_intercalate (fun c _ _ hrest => column?_columnTokens c hrest) fun _ => rfl
  rw [Creation.ofText?, tokens?_createTable, Option.bind_some]
  simp only [List.cons_append, List.nil_append, Creation.ofTokens?, hcolumns]

/-- Whatever the names are, an insertion is read as its table, its columns in their order and a placeholder for each
column in each row, and a creation as its table and its columns, those that the order names first and then the
others, with their types and the key. The texts that begin with a name in quotes are those that begin with it as it
is written, so no name ends its quotes early. -/
theorem statements_read_back (table : String) (columns : List String) (rows : Nat)
    (declared : List (String × ColumnType)) (key : Option String) (order : List String) :
    Insertion.ofText? (insert table columns rows) = some ⟨table, columns, List.replicate rows columns.length⟩ ∧
    (let given : List Column := declared.map fun c => ⟨c.1, c.2, key = some c.1⟩
     let made := Store.inOrder order given
     Creation.ofText? (createTable table made) = some ⟨table, made⟩ ∧ made.Perm given ∧
       made = Store.arranged order given) ∧
    ∀ cs name rest, quotedName? cs = some (name, rest) ↔
      cs = (quoteName name).toList ++ rest ∧ rest.head? ≠ some '"' :=
  ⟨insertion_read table columns rows,
    ⟨creation_read table _, Store.inOrder_perm order _, Store.inOrder_eq_arranged order _⟩,
    fun _ _ _ => quotedName?_eq_some_iff⟩

end Statement
end Tabulate
