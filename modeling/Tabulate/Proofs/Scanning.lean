import Tabulate.Proofs.Encoding
import Tabulate.Proofs.Headers

/-! Reading CSV text byte by byte. A field in quotes ends at a quote that no other follows, any other at the
delimiter or at the end of its line. What is written in a format is read back if delimiter, quote and line end are
told apart, and there are fields that are not if they are the same. -/
namespace Tabulate.Csv

open Text.Utf8 (encode_append mem_encode_iff mem_utf8EncodeChar_iff utf8EncodeChar_of_ascii)

/-! ### Reading -/

structure Signs where
  delimiter : UInt8
  quote : UInt8
  ends : List UInt8
deriving Repr

/-- Where reading is: before a record, before a field, in a field without quotes, in one with quotes, or behind a
quote in one, which ends the field unless another follows. -/
inductive Place where
  | recordStart
  | fieldStart
  | plain
  | quoted
  | quoteSeen
deriving DecidableEq, Repr

/-- What has been read: the field so far, the fields before it in its record, and the records before that. -/
structure Reader where
  place : Place := .recordStart
  field : List UInt8 := []
  fields : List (List UInt8) := []
  records : List (List (List UInt8)) := []
deriving DecidableEq, Repr

namespace Reader

def goTo (r : Reader) (p : Place) : Reader := { r with place := p }

def copy (r : Reader) (b : UInt8) : Reader := { r with field := r.field ++ [b] }

def endField (r : Reader) : Reader := ⟨.fieldStart, [], r.fields ++ [r.field], r.records⟩

def endRecord (r : Reader) : Reader := ⟨.recordStart, [], [], r.records ++ [r.fields ++ [r.field]]⟩

def finish (r : Reader) : List (List (List UInt8)) :=
  if r.place = .recordStart then r.records else r.endRecord.records

end Reader

namespace Signs

def outside (s : Signs) (r : Reader) (b : UInt8) : Reader :=
  if b = s.delimiter then r.endField
  else if b ∈ s.ends then r.endRecord
  else (r.copy b).goTo .plain

def opening (s : Signs) (r : Reader) (b : UInt8) : Reader :=
  if b = s.quote then r.goTo .quoted else s.outside r b

def step (s : Signs) (r : Reader) (b : UInt8) : Reader :=
  match r.place with
  | .recordStart => if b ∈ s.ends then r else s.opening r b
  | .fieldStart => s.opening r b
  | .plain => s.outside r b
  | .quoted => if b = s.quote then r.goTo .quoteSeen else r.copy b
  | .quoteSeen => if b = s.quote then (r.copy b).goTo .quoted else s.outside r b

def run (s : Signs) (r : Reader) (bs : List UInt8) : Reader := bs.foldl s.step r

end Signs

namespace Signs
variable {s : Signs} {r : Reader} {b : UInt8} {bs : List UInt8}

theorem run_append (r : Reader) (bs more : List UInt8) : s.run r (bs ++ more) = s.run (s.run r bs) more :=
  List.foldl_append

theorem run_cons (r : Reader) (b : UInt8) (bs : List UInt8) : s.run r (b :: bs) = s.run (s.step r b) bs := rfl

/-- Bytes that a place only copies are added to the field. -/
theorem run_copies {p : Place} (hcopy : ∀ b ∈ bs, ∀ r : Reader, r.place = p → s.step r b = r.copy b)
    (hp : r.place = p) : s.run r bs = { r with field := r.field ++ bs } := by
  induction bs generalizing r with
  | nil => simp [run]
  | cons b bs ih =>
    have hcopied : (r.copy b).place = p := hp
    rw [run_cons, hcopy b List.mem_cons_self r hp, ih (fun c hc => hcopy c (List.mem_cons_of_mem b hc)) hcopied]
    simp [Reader.copy]

theorem run_quoted (hp : r.place = .quoted) (hbs : s.quote ∉ bs) :
    s.run r bs = { r with field := r.field ++ bs } := by
  refine run_copies (fun b hb r hr => ?_) hp
  have hne : b ≠ s.quote := fun h => hbs (h ▸ hb)
  rw [step, hr]
  simp [hne]

/-- Line ends before a record count for nothing. -/
theorem run_ends (hp : r.place = .recordStart) (hbs : ∀ b ∈ bs, b ∈ s.ends) : s.run r bs = r := by
  induction bs with
  | nil => rfl
  | cons b bs ih =>
    have hstep : s.step r b = r := by
      rw [step, hp]
      simp [hbs b List.mem_cons_self]
    rw [run_cons, hstep]
    exact ih fun c hc => hbs c (List.mem_cons_of_mem b hc)

theorem step_outside (hp : r.place ≠ .quoted) (hquote : b ≠ s.quote) (hend : b ∉ s.ends) :
    s.step r b = s.outside r b := by
  unfold step
  cases hplace : r.place with
  | quoted => exact absurd hplace hp
  | _ => simp [hquote, hend, opening]

def Begins (p : Place) : Prop := p = .recordStart ∨ p = .fieldStart

theorem Begins.ne_quoted {p : Place} (hp : Begins p) : p ≠ .quoted := by
  rcases hp with rfl | rfl <;> nofun

theorem step_quote (hp : Begins r.place) (hend : s.quote ∉ s.ends) : s.step r s.quote = r.goTo .quoted := by
  unfold step
  rcases hp with hp | hp <;> simp [hp, hend, opening]

theorem run_unquoted (hp : Begins r.place) (hne : bs ≠ [])
    (hbs : ∀ b ∈ bs, b ≠ s.quote ∧ b ≠ s.delimiter ∧ b ∉ s.ends) :
    s.run r bs = ⟨.plain, r.field ++ bs, r.fields, r.records⟩ := by
  cases bs with
  | nil => exact absurd rfl hne
  | cons b bs =>
    have hb := hbs b List.mem_cons_self
    have hstep : s.step r b = (r.copy b).goTo .plain := by
      rw [step_outside hp.ne_quoted hb.1 hb.2.2, outside, if_neg hb.2.1, if_neg hb.2.2]
    have hplain : ∀ c ∈ bs, ∀ r : Reader, r.place = .plain → s.step r c = r.copy c := by
      intro c hc r hr
      have hc := hbs c (List.mem_cons_of_mem b hc)
      rw [step, hr]
      simp [outside, hc, Reader.goTo, Reader.copy, hr]
    rw [run_cons, hstep, run_copies hplain rfl]
    simp [Reader.goTo, Reader.copy]

structure Distinct (s : Signs) : Prop where
  delimiter_ne_quote : s.delimiter ≠ s.quote
  delimiter_not_end : s.delimiter ∉ s.ends
  quote_not_end : s.quote ∉ s.ends

theorem Distinct.step_delimiter (hs : s.Distinct) (hp : r.place ≠ .quoted) :
    s.step r s.delimiter = r.endField := by
  rw [step_outside hp hs.delimiter_ne_quote hs.delimiter_not_end, outside, if_pos rfl]

/-- The first byte of a line end ends the record, and the others count for nothing. -/
theorem Distinct.run_lineEnd (hs : s.Distinct) (hne : s.ends ≠ []) (hp : r.place ≠ .quoted)
    (hstart : r.place ≠ .recordStart) : s.run r s.ends = r.endRecord := by
  obtain ⟨b, bs, hends⟩ := List.exists_cons_of_ne_nil hne
  have hb : b ∈ s.ends := by simp [hends]
  have hquote : b ≠ s.quote := fun h => hs.quote_not_end (h ▸ hb)
  have hdelimiter : b ≠ s.delimiter := fun h => hs.delimiter_not_end (h ▸ hb)
  have hstep : s.step r b = r.endRecord := by
    unfold step
    cases hplace : r.place with
    | quoted => exact absurd hplace hp
    | recordStart => exact absurd hplace hstart
    | _ => simp [hquote, hdelimiter, hb, opening, outside]
  have hrest : s.run r.endRecord bs = r.endRecord := run_ends rfl fun c hc => by simp [hends, hc]
  calc s.run r s.ends = s.run (s.step r b) bs := by rw [hends]; rfl
    _ = r.endRecord := by rw [hstep, hrest]

end Signs

/-! ### Formats -/

namespace Format
variable {f : Format} {r : Reader}

def signs (f : Format) : Signs := ⟨f.delimiter.toUInt8, f.quote.toUInt8, Text.Utf8.encode f.lineEnd.chars⟩

def read (f : Format) (bs : List UInt8) : List (List String) :=
  (f.signs.run {} bs).finish.map fun fields => fields.map fun field => String.ofList (Text.Utf8.decodeLossy field)

/-- Delimiter and quote are signs of one byte each. -/
structure Ascii (f : Format) : Prop where
  delimiter : f.delimiter.toNat < 128
  quote : f.quote.toNat < 128

/-- Delimiter, quote and line end are told apart. -/
def Unambiguous (f : Format) : Prop :=
  f.delimiter ≠ f.quote ∧ f.delimiter ∉ f.lineEnd.chars ∧ f.quote ∉ f.lineEnd.chars

instance (f : Format) : Decidable f.Unambiguous := inferInstanceAs (Decidable (_ ∧ _ ∧ _))

theorem ends_ne_nil (f : Format) : f.signs.ends ≠ [] := by
  cases h : f.lineEnd <;> simp [signs, h, LineEnd.chars, Text.Utf8.encode]

theorem sign_inj {s t : Char} (hs : s.toNat < 128) (ht : t.toNat < 128) : s.toUInt8 = t.toUInt8 ↔ s = t := by
  have hmem := mem_utf8EncodeChar_iff hs (c := t)
  rw [utf8EncodeChar_of_ascii ht, List.mem_singleton] at hmem
  exact hmem.trans eq_comm

theorem Ascii.distinct_iff (hf : f.Ascii) : f.signs.Distinct ↔ f.Unambiguous := by
  have hdelimiter := mem_encode_iff hf.delimiter f.lineEnd.chars
  have hquote := mem_encode_iff hf.quote f.lineEnd.chars
  have hsame := sign_inj hf.delimiter hf.quote
  constructor
  · intro h
    exact ⟨mt hsame.2 h.delimiter_ne_quote, mt hdelimiter.2 h.delimiter_not_end, mt hquote.2 h.quote_not_end⟩
  · intro h
    exact ⟨mt hsame.1 h.1, mt hdelimiter.1 h.2.1, mt hquote.1 h.2.2⟩

/-- A field that needs no quotes holds none of the signs. -/
theorem Ascii.no_signs (hf : f.Ascii) {cs : List Char} (hcs : f.needsQuotes cs = false) :
    ∀ b ∈ Text.Utf8.encode cs, b ≠ f.signs.quote ∧ b ≠ f.signs.delimiter ∧ b ∉ f.signs.ends := by
  have hno : ∀ c ∈ cs, c ≠ f.delimiter ∧ c ≠ f.quote ∧ c ≠ '\r' ∧ c ≠ '\n' := by
    simpa [needsQuotes, and_assoc] using hcs
  have habsent {s : Char} (hs : s.toNat < 128) (hne : s ∉ cs) {b : UInt8} (hb : b ∈ Text.Utf8.encode cs) :
      b ≠ s.toUInt8 := fun h => hne ((mem_encode_iff hs cs).1 (h ▸ hb))
  intro b hb
  have hdelimiter := habsent hf.delimiter (fun h => (hno _ h).1 rfl) hb
  have hquote := habsent hf.quote (fun h => (hno _ h).2.1 rfl) hb
  refine ⟨hquote, hdelimiter, ?_⟩
  have hreturn := habsent (s := '\r') (by decide) (fun h => (hno _ h).2.2.1 rfl) hb
  have hfeed := habsent (s := '\n') (by decide) (fun h => (hno _ h).2.2.2 rfl) hb
  cases h : f.lineEnd with
  | crlf => simpa [signs, h, LineEnd.chars, Text.Utf8.encode, utf8EncodeChar_of_ascii] using ⟨hreturn, hfeed⟩
  | lf => simpa [signs, h, LineEnd.chars, Text.Utf8.encode, utf8EncodeChar_of_ascii] using hfeed

/-! ### What is written is read back -/

theorem Ascii.encode_delimiter (hf : f.Ascii) (cs : List Char) :
    Text.Utf8.encode (f.delimiter :: cs) = f.signs.delimiter :: Text.Utf8.encode cs := by
  rw [Text.Utf8.encode, List.flatMap_cons, utf8EncodeChar_of_ascii hf.delimiter]
  rfl

theorem Ascii.encode_quote (hf : f.Ascii) (cs : List Char) :
    Text.Utf8.encode (f.quote :: cs) = f.signs.quote :: Text.Utf8.encode cs := by
  rw [Text.Utf8.encode, List.flatMap_cons, utf8EncodeChar_of_ascii hf.quote]
  rfl

/-- Between quotes, a quote that is written twice is read as one. -/
theorem Ascii.run_doubled (hf : f.Ascii) (hp : r.place = .quoted) (cs : List Char) :
    f.signs.run r (Text.Utf8.encode (cs.flatMap fun c => if c = f.quote then [c, c] else [c])) =
      { r with field := r.field ++ Text.Utf8.encode cs } := by
  induction cs generalizing r with
  | nil => simp [Signs.run, Text.Utf8.encode]
  | cons c cs ih =>
    have hone : f.signs.run r (Text.Utf8.encode (if c = f.quote then [c, c] else [c])) =
        { r with field := r.field ++ Text.Utf8.encode [c] } := by
      by_cases hc : c = f.quote
      · rw [if_pos hc, hc, hf.encode_quote, hf.encode_quote]
        simp [Signs.run, Signs.step, hp, Reader.goTo, Reader.copy, Text.Utf8.encode]
      · rw [if_neg hc]
        refine Signs.run_quoted hp fun hmem => ?_
        have hquote := (mem_encode_iff hf.quote [c]).1 hmem
        exact hc (List.mem_singleton.1 hquote).symm
    have hplace : ({ r with field := r.field ++ Text.Utf8.encode [c] } : Reader).place = .quoted := hp
    have hcons : Text.Utf8.encode (c :: cs) = Text.Utf8.encode [c] ++ Text.Utf8.encode cs := encode_append [c] cs
    rw [List.flatMap_cons, encode_append, Signs.run_append, hone, ih hplace, hcons, List.append_assoc]

theorem Ascii.run_quotes (hf : f.Ascii) (hs : f.signs.Distinct) (hp : Signs.Begins r.place) (cs : List Char) :
    f.signs.run r (Text.Utf8.encode (f.quoted cs)) =
      ⟨.quoteSeen, r.field ++ Text.Utf8.encode cs, r.fields, r.records⟩ := by
  have hinside := hf.run_doubled (r := r.goTo .quoted) rfl cs
  rw [quoted, List.cons_append, hf.encode_quote, encode_append, hf.encode_quote, Signs.run_cons,
    Signs.step_quote hp hs.quote_not_end, Signs.run_append, hinside]
  simp [Signs.run, Signs.step, Reader.goTo, Text.Utf8.encode]

/-- A field is read where it may begin. Behind it reading stays before the record only if nothing was written. -/
theorem Ascii.run_field (hf : f.Ascii) (hs : f.signs.Distinct) (hp : Signs.Begins r.place) (cs : List Char) :
    ∃ p, f.signs.run r (Text.Utf8.encode (f.field cs)) = ⟨p, r.field ++ Text.Utf8.encode cs, r.fields, r.records⟩ ∧
      p ≠ .quoted ∧ (p = .recordStart → r.place = .recordStart ∧ f.field cs = []) := by
  rw [field]
  cases hcs : f.needsQuotes cs with
  | true => exact ⟨.quoteSeen, hf.run_quotes hs hp cs, by simp, by simp⟩
  | false =>
    cases cs with
    | nil => exact ⟨r.place, by simp [Signs.run, Text.Utf8.encode], hp.ne_quoted, fun h => ⟨h, rfl⟩⟩
    | cons c cs =>
      have hne : Text.Utf8.encode (c :: cs) ≠ [] := by simp [Text.Utf8.encode, String.utf8EncodeChar_ne_nil]
      exact ⟨.plain, Signs.run_unquoted hp hne (hf.no_signs hcs), by simp, by simp⟩

def line (f : Format) (fields : List String) : List Char :=
  [f.delimiter].intercalate (fields.map fun s => f.field s.toList)

def bytesOf (field : String) : List UInt8 := Text.Utf8.encode field.toList

theorem Ascii.run_line (hf : f.Ascii) (hs : f.signs.Distinct) {fields : List String} (hne : fields ≠ [])
    (hp : Signs.Begins r.place) (hfield : r.field = []) :
    ∃ r', f.signs.run r (Text.Utf8.encode (f.line fields)) = r' ∧ r'.place ≠ .quoted ∧
      (r'.place = .recordStart → r.place = .recordStart ∧ f.line fields = []) ∧
      r'.fields ++ [r'.field] = r.fields ++ fields.map bytesOf ∧ r'.records = r.records := by
  induction fields generalizing r with
  | nil => exact absurd rfl hne
  | cons x fields ih =>
    obtain ⟨p, hrun, hquoted, hstart⟩ := hf.run_field hs hp x.toList
    cases fields with
    | nil =>
      refine ⟨_, rfl, ?_⟩
      rw [line, List.map_singleton, List.intercalate_singleton, hrun, hfield]
      exact ⟨hquoted, hstart, rfl, rfl⟩
    | cons y fields =>
      have hread : f.signs.run r (Text.Utf8.encode (f.line (x :: y :: fields))) =
          f.signs.run ⟨.fieldStart, [], r.fields ++ [bytesOf x], r.records⟩
            (Text.Utf8.encode (f.line (y :: fields))) := by
        have hdelimiter : f.signs.step ⟨p, r.field ++ bytesOf x, r.fields, r.records⟩ f.signs.delimiter =
            ⟨.fieldStart, [], r.fields ++ [bytesOf x], r.records⟩ := by
          rw [hfield]
          exact hs.step_delimiter hquoted
        rw [line, List.map_cons, List.map_cons, List.intercalate_cons_cons, List.append_assoc, encode_append,
          List.singleton_append, hf.encode_delimiter, Signs.run_append, hrun, Signs.run_cons]
        exact congrArg (f.signs.run · _) hdelimiter
      obtain ⟨r', hr', hquoted', hstart', hfields, hrecords⟩ :=
        ih (r := ⟨.fieldStart, [], r.fields ++ [bytesOf x], r.records⟩) (List.cons_ne_nil y fields) (.inr rfl) rfl
      refine ⟨r', hread.trans hr', hquoted', fun h => ?_, ?_, hrecords⟩
      · cases (hstart' h).1
      · rw [hfields]
        simp

/-- A record is read as its fields. -/
theorem Ascii.run_record (hf : f.Ascii) (hs : f.signs.Distinct) {fields : List String} (hne : fields ≠ [])
    (records : List (List (List UInt8))) :
    f.signs.run ⟨.recordStart, [], [], records⟩ (Text.Utf8.encode (f.record fields)) =
      ⟨.recordStart, [], [], records ++ [fields.map bytesOf]⟩ := by
  have hends : Text.Utf8.encode f.lineEnd.chars = f.signs.ends := rfl
  have hrecord : f.record fields =
      (if (f.line fields).isEmpty then f.quoted [] else f.line fields) ++ f.lineEnd.chars := rfl
  obtain ⟨r', hrun, hquoted, hstart, hfields, hrecords⟩ :=
    hf.run_line hs (r := ⟨.recordStart, [], [], records⟩) hne (.inl rfl) rfl
  rw [hrecord, encode_append, hends, Signs.run_append]
  by_cases hline : f.line fields = []
  · -- nothing was written but the quotes that stand for the one field
    have hread : r' = ⟨.recordStart, [], [], records⟩ := by
      rw [← hrun, hline]
      rfl
    rw [hread, List.nil_append, List.nil_append] at hfields
    rw [hline, List.isEmpty_nil, if_pos rfl, hf.run_quotes hs (.inl rfl) []]
    rw [hs.run_lineEnd f.ends_ne_nil (by simp) (by simp), ← hfields]
    rfl
  · have hnotEmpty : (f.line fields).isEmpty = false := by simpa using hline
    rw [hnotEmpty, if_neg nofun, hrun, hs.run_lineEnd f.ends_ne_nil hquoted fun h => hline (hstart h).2,
      Reader.endRecord, hfields, hrecords]
    rfl

theorem Ascii.run_records (hf : f.Ascii) (hs : f.signs.Distinct) {rows : List (List String)}
    (hne : ∀ row ∈ rows, row ≠ []) (records : List (List (List UInt8))) :
    f.signs.run ⟨.recordStart, [], [], records⟩ (Text.Utf8.encode (rows.flatMap f.record)) =
      ⟨.recordStart, [], [], records ++ rows.map fun row => row.map bytesOf⟩ := by
  induction rows generalizing records with
  | nil => simp [Signs.run, Text.Utf8.encode]
  | cons row rows ih =>
    rw [List.flatMap_cons, encode_append, Signs.run_append, hf.run_record hs (hne row List.mem_cons_self),
      ih fun other h => hne other (List.mem_cons_of_mem row h)]
    simp

/-- Where the signs are told apart, all that is written is read back. -/
theorem Ascii.read_records (hf : f.Ascii) (hu : f.Unambiguous) {rows : List (List String)}
    (hne : ∀ row ∈ rows, row ≠ []) : f.read (Text.Utf8.encode (rows.flatMap f.record)) = rows := by
  have hdecode (field : String) : String.ofList (Text.Utf8.decodeLossy (bytesOf field)) = field := by
    rw [bytesOf, Text.Utf8.decodeLossy_encode, String.ofList_toList]
  have hrun := hf.run_records (hf.distinct_iff.2 hu) hne []
  rw [read, hrun]
  simp [Reader.finish, Function.comp_def, hdecode]

/-- Where they are not, there is a row that is not read back. -/
theorem Ascii.not_read (hf : f.Ascii) (hu : ¬f.Unambiguous) :
    ∃ row : List String, row ≠ [] ∧ f.read (Text.Utf8.encode (f.record row)) ≠ [row] := by
  have hone : Text.Utf8.encode (f.record [""]) = f.signs.quote :: f.signs.quote :: f.signs.ends := by
    have hrecord : f.record [""] = f.quote :: f.quote :: f.lineEnd.chars := by
      simp [record, field, needsQuotes, quoted]
    rw [hrecord, hf.encode_quote, hf.encode_quote]
    rfl
  have htwo : Text.Utf8.encode (f.record ["", ""]) = f.signs.delimiter :: f.signs.ends := by
    have hrecord : f.record ["", ""] = f.delimiter :: f.lineEnd.chars := by simp [record, field, needsQuotes]
    rw [hrecord, hf.encode_delimiter]
    rfl
  have hnothing {bs : List UInt8} (h : ∀ b ∈ bs, b ∈ f.signs.ends) : f.read bs = [] := by
    rw [read, Signs.run_ends rfl h]
    rfl
  by_cases hdelimiter : f.signs.delimiter ∈ f.signs.ends
  · refine ⟨["", ""], nofun, ?_⟩
    rw [htwo, hnothing (by simpa using hdelimiter)]
    nofun
  · by_cases hquote : f.signs.quote ∈ f.signs.ends
    · refine ⟨[""], nofun, ?_⟩
      rw [hone, hnothing (by simpa using hquote)]
      nofun
    · -- the delimiter is the quote, so the line end is within quotes
      have hsame : f.signs.delimiter = f.signs.quote :=
        Decidable.byContradiction fun hne => hu (hf.distinct_iff.1 ⟨hne, hdelimiter, hquote⟩)
      have hopen : f.signs.step {} f.signs.quote = ⟨.quoted, [], [], []⟩ := Signs.step_quote (.inl rfl) hquote
      refine ⟨["", ""], nofun, ?_⟩
      rw [htwo, hsame, read, Signs.run_cons, hopen, Signs.run_quoted rfl hquote]
      simp [Reader.finish, Reader.endRecord]

end Format

/-! ### Files -/

namespace Writer
variable {w : Writer} {l : TableLayout} {fs fs' : FileSystem}

/-- Rows go behind what the file holds, below a header if it holds nothing yet. -/
theorem content?_writeTable {rs : List Record} {n : Nat} (h : w.writeTable l rs fs = .ok n fs') :
    fs'.content? (w.pathFor l.name) = some ((fs.content? (w.pathFor l.name)).getD [] ++ w.lines
      ((if (fs.content? (w.pathFor l.name)).isSome then [] else [l.columns]) ++ rs.map (w.fieldsOf l))) := by
  have happend := writeTable_eq_ok (p := ⟨l, rs⟩) h
  rw [FileSystem.content?_append happend, FileSystem.exists?_of_append happend]
  rfl

theorem content?_writeTables {batches : List (List Record)} {counts : List Nat} {bytes : List UInt8}
    (hthere : fs.content? (w.pathFor l.name) = some bytes) (h : batches.mapM (w.writeTable l) fs = .ok counts fs') :
    fs'.content? (w.pathFor l.name) = some (bytes ++ w.lines (batches.flatten.map (w.fieldsOf l))) := by
  induction batches generalizing fs bytes counts with
  | nil =>
    cases h
    simpa using hthere
  | cons rs batches ih =>
    rw [List.mapM_cons] at h
    obtain ⟨n, fs₁, hfirst, h⟩ := Effects.bind_eq_ok.1 h
    obtain ⟨more, fs₂, hrest, hp⟩ := Effects.bind_eq_ok.1 h
    cases hp
    have hwritten := content?_writeTable hfirst
    rw [hthere, Option.isSome_some, if_pos rfl, Option.getD_some, List.nil_append] at hwritten
    rw [ih hwritten hrest, List.flatten_cons, List.map_append, lines_append, List.append_assoc]

/-- The file of a table that is written in several calls, the first of which makes it. -/
theorem content?_of_made {first : List Record} {batches : List (List Record)} {counts : List Nat}
    (hfree : fs.exists? (w.pathFor l.name) = false)
    (h : (first :: batches).mapM (w.writeTable l) fs = .ok counts fs') :
    fs'.content? (w.pathFor l.name) =
      some (w.lines (l.columns :: (first :: batches).flatten.map (w.fieldsOf l))) := by
  rw [List.mapM_cons] at h
  obtain ⟨n, fs₁, hfirst, h⟩ := Effects.bind_eq_ok.1 h
  obtain ⟨more, fs₂, hrest, hp⟩ := Effects.bind_eq_ok.1 h
  cases hp
  have hmade := content?_writeTable hfirst
  rw [FileSystem.content?_of_not_exists hfree, Option.isSome_none, if_neg nofun, Option.getD_none,
    List.nil_append] at hmade
  rw [content?_writeTables hmade hrest, ← lines_append, List.flatten_cons, List.map_append]
  rfl

theorem ascii_of_openIn {directory : String} {format : Format} (h : openIn directory format fs = .ok w fs') :
    format.Ascii := by
  have hbyte {c : Char} (hc : ¬(asciiByte? c).isNone = true) : c.toNat < 128 := by
    rw [asciiByte?] at hc
    split at hc
    · assumption
    · exact absurd rfl hc
  rw [openIn] at h
  split at h
  · cases h
  · next hdelimiter =>
    split at h
    · cases h
    · next hquote => exact ⟨hbyte hdelimiter, hbyte hquote⟩

/-- A file that a writer makes holds the header and all rows that are written to it, and all headers and rows are
read back from such files if and only if the delimiter, the quote and the line end are told apart. -/
theorem sheets_read_back_iff {directory : String} {format : Format} (h : openIn directory format fs = .ok w fs') :
    (∀ (l : TableLayout) (first : List Record) (batches : List (List Record)) (a b : FileSystem) (counts : List Nat),
      a.exists? (w.pathFor l.name) = false → (first :: batches).mapM (w.writeTable l) a = .ok counts b →
      b.content? (w.pathFor l.name) =
        some (w.lines (l.columns :: (first :: batches).flatten.map (w.fieldsOf l)))) ∧
    ((∀ (l : TableLayout) (rs : List Record), l.columns ≠ [] →
      format.read (w.lines (l.columns :: rs.map (w.fieldsOf l))) = l.columns :: rs.map (w.fieldsOf l)) ↔
      format.Unambiguous) := by
  have hascii := ascii_of_openIn h
  have hw : w.format = format := by rw [openIn_eq_ok h]
  refine ⟨fun l first batches a b counts => content?_of_made, fun hall => ?_, fun hu l rs hl => ?_⟩
  · refine Decidable.byContradiction fun hu => ?_
    obtain ⟨row, hrow, hread⟩ := hascii.not_read hu
    have hheader := hall ⟨"", row, none⟩ [] hrow
    rw [lines, List.map_nil, List.flatMap_singleton, hw] at hheader
    exact hread hheader
  · rw [lines, hw]
    refine hascii.read_records hu fun row hrow => ?_
    rcases List.mem_cons.1 hrow with rfl | hrow
    · exact hl
    · obtain ⟨r, -, rfl⟩ := List.mem_map.1 hrow
      exact fun hnone => hl (List.map_eq_nil_iff.1 hnone)

end Writer

def songLayout : TableLayout := ⟨"song", ["side", "title"], none⟩

def loudSong : Record := (Record.empty.insert "side" none).insert "title" (some "Say \"no\",\r\nthen")

theorem sheets_read_back_iff_loudSong :
    (∃ fs, Writer.openIn "sheets" {} noFiles = .ok sheets fs) ∧ songLayout.columns ≠ [] ∧
      Format.read {} (sheets.lines (songLayout.columns :: [loudSong].map (sheets.fieldsOf songLayout))) =
        [["side", "title"], ["", "Say \"no\",\r\nthen"]] := by
  obtain ⟨w, fs, hopen, -⟩ := Effects.succeeds_iff.1
    (show Effects.succeeds (fun _ => true) (Writer.openIn "sheets" {} noFiles) = true by decide +kernel)
  obtain rfl : w = sheets := Writer.openIn_eq_ok hopen
  refine ⟨⟨fs, hopen⟩, nofun, ?_⟩
  exact (Writer.sheets_read_back_iff hopen).2.2 (by decide) songLayout [loudSong] nofun

def oneSign : Format := { delimiter := '"' }

def roadSong : Record := Record.empty.insert "title" (some "Road")

/-- A writer takes one sign for both, and the value behind an empty one is read as the whole row. -/
theorem one_sign_misread : ∃ w fs fs' bytes, Writer.openIn "sheets" oneSign noFiles = .ok w fs ∧
    fs.exists? (w.pathFor "song") = false ∧ w.writeTable songLayout [roadSong] fs = .ok 1 fs' ∧
    fs'.content? (w.pathFor "song") = some bytes ∧
    songLayout.columns :: [roadSong].map (w.fieldsOf songLayout) = [["side", "title"], ["", "Road"]] ∧
    oneSign.read bytes = [["side", "title"], ["Road\r\n"]] := by
  let bytes := Text.Utf8.encode "side\"title\r\n\"Road\r\n".toList
  let w : Writer := ⟨"sheets", oneSign⟩
  obtain ⟨w', fs, hopen, hwritten⟩ := Effects.succeeds_iff.1
    (show Effects.succeeds (fun fs => fs.exists? (w.pathFor "song") = false ∧
      Effects.succeeds (fun fs' => fs'.content? (w.pathFor "song") = some bytes) (w.writeTable songLayout [roadSong] fs))
      (Writer.openIn "sheets" oneSign noFiles) = true by decide +kernel)
  obtain rfl : w' = w := Writer.openIn_eq_ok hopen
  obtain ⟨hfree, hwritten⟩ := of_decide_eq_true hwritten
  obtain ⟨n, fs', hrow, hfile⟩ := Effects.succeeds_iff.1 hwritten
  have hone : n = 1 := by
    rw [Writer.writeTable] at hrow
    split at hrow
    · exact (EStateM.Result.ok.inj hrow).1.symm
    · cases hrow
  exact ⟨w, fs, fs', bytes, hopen, hfree, hone ▸ hrow, of_decide_eq_true hfile, rfl, by decide +kernel⟩

end Tabulate.Csv
