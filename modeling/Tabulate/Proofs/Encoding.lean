import Mathlib.Algebra.Group.Nat.Defs
import Tabulate.Text.Utf8

/-! Text as UTF-8 and back. The bytes of a character open it and then complete it six bits at a time, so
that the bytes of a text are read as the text, with no gap in it. -/
namespace Tabulate.Text.Utf8

def tailBytes (v : Nat) : Nat → List UInt8
  | 0 => []
  | k + 1 => UInt8.ofNat (v / 64 ^ k % 64 + 128) :: tailBytes v k

section Characters
variable {v k lead : Nat} {p : Partial} {c : Char} {bs : List UInt8}

theorem div_pow_succ (v k : Nat) : v / 64 ^ (k + 1) = v / 64 ^ k / 64 :=
  (Nat.div_div_eq_div_mul v (64 ^ k) 64).symm

theorem toNat_tailByte (n : Nat) : (UInt8.ofNat (n % 64 + 128)).toNat = n % 64 + 128 := by
  rw [UInt8.toNat_ofNat']
  omega

theorem Partial.value_add (p : Partial) (b : Nat) : (p.add b).value = p.value * 64 + (b - 0x80) := rfl

theorem Partial.missing_add (p : Partial) (b : Nat) : (p.add b).missing = p.missing - 1 := rfl

theorem Partial.takes_add (p : Partial) (b n : Nat) : (p.add b).takes (n % 64 + 128) = true := by
  have hlo : 0x80 ≤ n % 64 + 128 := by omega
  have hhi : n % 64 + 128 ≤ 0xBF := by omega
  exact Bool.and_eq_true_iff.2 ⟨decide_eq_true hlo, decide_eq_true hhi⟩

/-- An open character is completed by the bytes that it lacks. -/
theorem scan_tailBytes (hvalue : p.value = v / 64 ^ (k + 1)) (hmissing : p.missing = k + 1)
    (htakes : p.takes (v / 64 ^ k % 64 + 128) = true) :
    scan (some p) (tailBytes v (k + 1) ++ bs) = some (Char.ofNat v) :: scan none bs := by
  induction k generalizing p with
  | zero =>
    have hwhole : (p.add (v / 64 ^ 0 % 64 + 128)).value = v := by
      rw [p.value_add, hvalue, div_pow_succ, Nat.pow_zero, Nat.div_one]
      omega
    rw [tailBytes, List.cons_append, scan, toNat_tailByte, step, if_pos htakes, if_pos hmissing, hwhole]
    rfl
  | succ k ih =>
    have hnext : (p.add (v / 64 ^ (k + 1) % 64 + 128)).value = v / 64 ^ (k + 1) := by
      rw [p.value_add, hvalue, div_pow_succ v (k + 1)]
      generalize v / 64 ^ (k + 1) = w
      omega
    have hleft : (p.add (v / 64 ^ (k + 1) % 64 + 128)).missing = k + 1 := by
      rw [p.missing_add, hmissing, Nat.add_sub_cancel]
    have hmore : p.missing ≠ 1 := by omega
    rw [tailBytes, List.cons_append, scan, toNat_tailByte, step, if_pos htakes, if_neg hmore]
    exact ih hnext hleft (p.takes_add _ _)

def Opens (lead v k : Nat) : Prop :=
  ∃ lo hi, start lead = ([], some ⟨v / 64 ^ (k + 1), k + 1, lo, hi⟩) ∧
    lo ≤ v / 64 ^ k % 64 + 128 ∧ v / 64 ^ k % 64 + 128 ≤ hi

theorem Opens.scan_eq (h : Opens lead v k) (hbyte : lead < 256) :
    scan none (UInt8.ofNat lead :: (tailBytes v (k + 1) ++ bs)) = some (Char.ofNat v) :: scan none bs := by
  obtain ⟨lo, hi, hstart, hlo, hhi⟩ := h
  have hlead : (UInt8.ofNat lead).toNat = lead := by
    rw [UInt8.toNat_ofNat']
    omega
  rw [scan, hlead, step, hstart]
  exact scan_tailBytes rfl rfl (Bool.and_eq_true_iff.2 ⟨decide_eq_true hlo, decide_eq_true hhi⟩)

theorem start_of_lead {b : Nat} {p : Partial} (hb : 0x80 ≤ b) (hp : Partial.ofLead? b = some p) :
    start b = ([], some p) := by
  rw [start, if_neg (by omega), hp]

theorem opens_two (hlo : 0x80 ≤ v) (hhi : v ≤ 0x7FF) : Opens (v / 64 % 32 + 192) v 0 := by
  have hrange : 0xC2 ≤ v / 64 % 32 + 192 ∧ v / 64 % 32 + 192 ≤ 0xDF := by omega
  have hvalue : v / 64 % 32 + 192 - 0xC0 = v / 64 ^ (0 + 1) := by
    rw [div_pow_succ, Nat.pow_zero, Nat.div_one]
    omega
  refine ⟨0x80, 0xBF, start_of_lead (by omega) ?_, by omega, by omega⟩
  rw [Partial.ofLead?, if_pos hrange, hvalue]

theorem opens_three (hlo : 0x800 ≤ v) (hhi : v ≤ 0xFFFF) (hvalid : v < 0xD800 ∨ 0xDFFF < v) :
    Opens (v / 4096 % 16 + 224) v 1 := by
  have hnext : v / 64 ^ 1 = v / 64 := rfl
  have hshare : v / 64 ^ (1 + 1) = v / 4096 := rfl
  have hlow : ¬(0xC2 ≤ v / 4096 % 16 + 224 ∧ v / 4096 % 16 + 224 ≤ 0xDF) := by omega
  rw [Opens, hnext, hshare]
  by_cases hfirst : v / 4096 % 16 + 224 = 0xE0
  · have hzero : v / 4096 = 0 := by omega
    refine ⟨0xA0, 0xBF, start_of_lead (by omega) ?_, by omega, by omega⟩
    rw [Partial.ofLead?, if_neg hlow, if_pos hfirst, hzero]
  · by_cases hsurrogate : v / 4096 % 16 + 224 = 0xED
    · have hd : v / 4096 = 0xD := by omega
      refine ⟨0x80, 0x9F, start_of_lead (by omega) ?_, by omega, by omega⟩
      rw [Partial.ofLead?, if_neg hlow, if_neg hfirst, if_pos hsurrogate, hd]
    · have hrange : 0xE1 ≤ v / 4096 % 16 + 224 ∧ v / 4096 % 16 + 224 ≤ 0xEF := by omega
      have hvalue : v / 4096 % 16 + 224 - 0xE0 = v / 4096 := by omega
      refine ⟨0x80, 0xBF, start_of_lead (by omega) ?_, by omega, by omega⟩
      rw [Partial.ofLead?, if_neg hlow, if_neg hfirst, if_neg hsurrogate, if_pos hrange, hvalue]

theorem opens_four (hlo : 0x10000 ≤ v) (hhi : v ≤ 0x10FFFF) : Opens (v / 262144 % 8 + 240) v 2 := by
  have hnext : v / 64 ^ 2 = v / 4096 := rfl
  have hshare : v / 64 ^ (2 + 1) = v / 262144 := rfl
  have hlow : ¬(0xC2 ≤ v / 262144 % 8 + 240 ∧ v / 262144 % 8 + 240 ≤ 0xDF) := by omega
  have hthree : v / 262144 % 8 + 240 ≠ 0xE0 ∧ v / 262144 % 8 + 240 ≠ 0xED ∧
      ¬(0xE1 ≤ v / 262144 % 8 + 240 ∧ v / 262144 % 8 + 240 ≤ 0xEF) := by omega
  rw [Opens, hnext, hshare]
  by_cases hfirst : v / 262144 % 8 + 240 = 0xF0
  · have hzero : v / 262144 = 0 := by omega
    refine ⟨0x90, 0xBF, start_of_lead (by omega) ?_, by omega, by omega⟩
    rw [Partial.ofLead?, if_neg hlow, if_neg hthree.1, if_neg hthree.2.1, if_neg hthree.2.2, if_pos hfirst, hzero]
  · by_cases hmiddle : 0xF1 ≤ v / 262144 % 8 + 240 ∧ v / 262144 % 8 + 240 ≤ 0xF3
    · have hvalue : v / 262144 % 8 + 240 - 0xF0 = v / 262144 := by omega
      refine ⟨0x80, 0xBF, start_of_lead (by omega) ?_, by omega, by omega⟩
      rw [Partial.ofLead?, if_neg hlow, if_neg hthree.1, if_neg hthree.2.1, if_neg hthree.2.2, if_neg hfirst,
        if_pos hmiddle, hvalue]
    · have hlast : v / 262144 % 8 + 240 = 0xF4 := by omega
      have hfour : v / 262144 = 4 := by omega
      refine ⟨0x80, 0x8F, start_of_lead (by omega) ?_, by omega, by omega⟩
      rw [Partial.ofLead?, if_neg hlow, if_neg hthree.1, if_neg hthree.2.1, if_neg hthree.2.2, if_neg hfirst,
        if_neg hmiddle, if_pos hlast, hfour]

theorem tailBytes_one (v : Nat) : tailBytes v 1 = [UInt8.ofNat (v % 64 + 128)] := by
  rw [tailBytes, tailBytes, Nat.pow_zero, Nat.div_one]

theorem tailBytes_two (v : Nat) : tailBytes v 2 = UInt8.ofNat (v / 64 % 64 + 128) :: tailBytes v 1 := rfl

theorem tailBytes_three (v : Nat) : tailBytes v 3 = UInt8.ofNat (v / 4096 % 64 + 128) :: tailBytes v 2 := rfl

/-- The bytes of a character are read as the character. -/
theorem scan_char (c : Char) (bs : List UInt8) :
    scan none (String.utf8EncodeChar c ++ bs) = some c :: scan none bs := by
  have hvalid : c.val.toNat < 0xD800 ∨ (0xDFFF < c.val.toNat ∧ c.val.toNat < 0x110000) := c.valid
  have hchar : Char.ofNat c.val.toNat = c := Char.ofNat_toNat c
  rw [String.utf8EncodeChar]
  generalize c.val.toNat = v at hvalid hchar
  split
  · next hone =>
    have hbyte : (UInt8.ofNat v).toNat = v := by
      rw [UInt8.toNat_ofNat']
      omega
    rw [List.singleton_append, scan, hbyte, step, start, if_pos (by omega), hchar]
    rfl
  · rw [← tailBytes_one, ← tailBytes_two, ← tailBytes_three, ← hchar]
    -- two, three or four bytes
    split
    · have hopens : Opens (v / 64 % 32 + 192) v 0 := opens_two (by omega) (by omega)
      exact hopens.scan_eq (by omega)
    · split
      · have hopens : Opens (v / 4096 % 16 + 224) v 1 := opens_three (by omega) (by omega) (by omega)
        exact hopens.scan_eq (by omega)
      · have hopens : Opens (v / 262144 % 8 + 240) v 2 := opens_four (by omega) (by omega)
        exact hopens.scan_eq (by omega)

theorem scan_encode (cs : List Char) : scan none (encode cs) = cs.map some := by
  induction cs with
  | nil => rfl
  | cons c cs ih =>
    rw [encode, List.flatMap_cons, scan_char, List.map_cons]
    exact congrArg _ ih

/-- The bytes of a text are read as the text. -/
theorem decodeLossy_encode (cs : List Char) : decodeLossy (encode cs) = cs := by
  rw [decodeLossy, scan_encode, List.map_map]
  exact List.map_id cs

end Characters

theorem encode_append (cs ds : List Char) : encode (cs ++ ds) = encode cs ++ encode ds := List.flatMap_append

/-! ### Characters of one byte -/

/-- All bytes of a longer character are above those of characters of one byte. -/
theorem le_of_mem_utf8EncodeChar {c : Char} {b : UInt8} (hc : 128 ≤ c.toNat) (hb : b ∈ String.utf8EncodeChar c) :
    128 ≤ b.toNat := by
  have hval : c.toNat = c.val.toNat := rfl
  simp only [String.utf8EncodeChar] at hb
  split at hb
  · omega
  · split at hb
    · simp only [List.mem_cons, List.not_mem_nil, or_false] at hb
      rcases hb with rfl | rfl <;> rw [UInt8.toNat_ofNat'] <;> omega
    · split at hb
      · simp only [List.mem_cons, List.not_mem_nil, or_false] at hb
        rcases hb with rfl | rfl | rfl <;> rw [UInt8.toNat_ofNat'] <;> omega
      · simp only [List.mem_cons, List.not_mem_nil, or_false] at hb
        rcases hb with rfl | rfl | rfl | rfl <;> rw [UInt8.toNat_ofNat'] <;> omega

section Ascii
variable {s : Char} (hs : s.toNat < 128)
include hs

theorem toNat_toUInt8_of_ascii : s.toUInt8.toNat = s.toNat := by
  have hval : s.val.toNat = s.toNat := rfl
  rw [Char.toUInt8, UInt32.toNat_toUInt8, hval]
  omega

theorem utf8EncodeChar_of_ascii : String.utf8EncodeChar s = [s.toUInt8] :=
  String.utf8EncodeChar_eq_singleton (Char.utf8Size_eq_one_iff.2 (Nat.le_of_lt_succ hs))

/-- A character of one byte is no part of any other. -/
theorem mem_utf8EncodeChar_iff {c : Char} : s.toUInt8 ∈ String.utf8EncodeChar c ↔ c = s := by
  constructor
  · intro h
    have hbyte : s.toUInt8.toNat = s.toNat := toNat_toUInt8_of_ascii hs
    by_cases hc : c.toNat < 128
    · rw [utf8EncodeChar_of_ascii hc, List.mem_singleton] at h
      refine Char.toNat_inj.1 ?_
      rw [← toNat_toUInt8_of_ascii hc, ← hbyte, h]
    · have hhigh := le_of_mem_utf8EncodeChar (Nat.le_of_not_lt hc) h
      omega
  · intro h
    rw [h, utf8EncodeChar_of_ascii hs]
    exact List.mem_singleton_self _

theorem mem_encode_iff (cs : List Char) : s.toUInt8 ∈ encode cs ↔ s ∈ cs := by
  rw [encode, List.mem_flatMap]
  constructor
  · rintro ⟨c, hc, hmem⟩
    rwa [← (mem_utf8EncodeChar_iff hs).1 hmem]
  · intro h
    exact ⟨s, h, (mem_utf8EncodeChar_iff hs).2 rfl⟩

end Ascii

end Tabulate.Text.Utf8
