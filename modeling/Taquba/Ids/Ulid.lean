import Taquba.Bytes.Order

/-! # Texts of 128-bit ids

A ULID is a 128-bit number. Its text and the parser of texts come from a crate outside the
repository, so they are parameters with the laws that the runtime relies on. The digits of
base 32 over an alphabet of digits and upper-case letters are an instance.
-/

namespace Taquba

open Bytes

structure Ulid where
  value : BitVec 128
  deriving DecidableEq, Repr

/-- The text of a ULID and the parser of texts. -/
structure UlidText where
  text : Ulid → String
  parse : String → Option Ulid

namespace UlidText

variable {ulids : UlidText}

/-- A text parses to its ULID and has letters and digits only. -/
structure Lawful (ulids : UlidText) : Prop where
  parse_text : ∀ id, ulids.parse (ulids.text id) = some id
  isAlphanum : ∀ id, ∀ c ∈ (ulids.text id).toList, c.isAlphanum = true

theorem Lawful.text_injective (h : ulids.Lawful) : Function.Injective ulids.text := by
  intro id id' ht
  have hp := congrArg ulids.parse ht
  rw [h.parse_text, h.parse_text] at hp
  exact Option.some.inj hp

theorem Lawful.not_mem_text (h : ulids.Lawful) (id : Ulid) {c : Char} (hc : c.isAlphanum = false) :
    c ∉ (ulids.text id).toList := by
  intro hmem
  simp [h.isAlphanum id c hmem] at hc

end UlidText

namespace Ulid

def alphabet : List Char :=
  ['0', '1', '2', '3', '4', '5', '6', '7', '8', '9', 'A', 'B', 'C', 'D', 'E', 'F', 'G', 'H', 'J',
    'K', 'M', 'N', 'P', 'Q', 'R', 'S', 'T', 'V', 'W', 'X', 'Y', 'Z']

def textLen : ℕ := 26

def digit (n : ℕ) : Char := alphabet.getD n '0'

/-- The lowest `width` digits of a number, most significant digit first. -/
def digits : (width n : ℕ) → List Char
  | 0, _ => []
  | width + 1, n => digits width (n / 32) ++ [digit (n % 32)]

def digitValue (c : Char) : Option ℕ := alphabet.idxOf? c.toUpper

def ofDigits (cs : List Char) : Option ℕ :=
  cs.foldlM (fun n c => (digitValue c).map fun d => n * 32 + d) 0

def text (id : Ulid) : String := String.ofList (digits textLen id.value.toNat)

def parse (text : String) : Option Ulid :=
  if text.utf8ByteSize = textLen then
    (ofDigits text.toList).map fun n => ⟨BitVec.ofNat 128 n⟩
  else none

theorem digitValue_digit {n : ℕ} (h : n < 32) : digitValue (digit n) = some n := by
  have all : ∀ n : Fin 32, digitValue (digit n) = some n.val := by decide
  exact all ⟨n, h⟩

theorem isAlphanum_digit (n : ℕ) : (digit n).isAlphanum = true := by
  have all : ∀ c ∈ alphabet, c.isAlphanum = true := List.all_eq_true.mp (by decide)
  unfold digit
  rcases lt_or_ge n alphabet.length with h | h
  · rw [List.getD_eq_getElem _ _ h]
    exact all _ (List.getElem_mem h)
  · rw [List.getD_eq_default _ _ h]
    decide

@[simp] theorem length_digits (width n : ℕ) : (digits width n).length = width := by
  induction width generalizing n with
  | zero => rfl
  | succ width ih => simp [digits, ih]

theorem isAlphanum_of_mem_digits {width n : ℕ} {c : Char} (h : c ∈ digits width n) :
    c.isAlphanum = true := by
  induction width generalizing n with
  | zero => cases h
  | succ width ih =>
    rcases List.mem_append.mp h with h | h
    · exact ih h
    · rw [List.mem_singleton.mp h]
      exact isAlphanum_digit _

theorem ofDigits_digits {width n : ℕ} (h : n < 32 ^ width) :
    ofDigits (digits width n) = some n := by
  induction width generalizing n with
  | zero =>
    have hn : n = 0 := by simpa using h
    rw [hn]
    rfl
  | succ width ih =>
    have hdiv : n / 32 < 32 ^ width := Nat.div_lt_of_lt_mul (by rwa [Nat.pow_succ'] at h)
    have hrec := ih hdiv
    unfold ofDigits at hrec
    rw [ofDigits, digits, List.foldlM_append, hrec]
    simp [digitValue_digit (Nat.mod_lt n (by decide : 0 < 32))]
    omega

theorem isAlphanum_of_mem_text {id : Ulid} {c : Char} (h : c ∈ (text id).toList) :
    c.isAlphanum = true := by
  rw [text, String.toList_ofList] at h
  exact isAlphanum_of_mem_digits h

theorem utf8ByteSize_text (id : Ulid) : (text id).utf8ByteSize = textLen := by
  have hascii : ∀ c ∈ (text id).toList, c.toNat ≤ 127 := fun c h =>
    toNat_le_of_isAlphanum (isAlphanum_of_mem_text h)
  rw [← length_utf8, length_utf8_of_ascii hascii]
  simp [text]

theorem parse_text (id : Ulid) : parse (text id) = some id := by
  have hlt : id.value.toNat < 32 ^ textLen := lt_of_lt_of_le id.value.isLt (by decide)
  rw [parse, if_pos (utf8ByteSize_text id), text, String.toList_ofList, ofDigits_digits hlt]
  simp

/-- The digits of base 32 as the text of a ULID. -/
def base32 : UlidText := ⟨text, parse⟩

theorem lawful_base32 : base32.Lawful where
  parse_text id := by simp only [base32, parse_text]
  isAlphanum id c h := by
    simp only [base32] at h
    exact isAlphanum_of_mem_text h

end Ulid

end Taquba
