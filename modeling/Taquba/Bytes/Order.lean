import Mathlib

/-! # Byte strings in lexicographic order

Keys are compared byte by byte. A common front drops out of a comparison, fields of
one width compare before what follows them, and the keys that start with a given front
form an interval. A number in big-endian form compares like the number.
-/

namespace Bytes

/-- A field without the byte that follows it ends at the first such byte. -/
theorem append_cons_inj_of_notMem {α : Type*} {a b x y : List α} {c : α} (ha : c ∉ a) (hb : c ∉ b)
    (h : a ++ c :: x = b ++ c :: y) : a = b ∧ x = y := by
  induction a generalizing b with
  | nil =>
    cases b with
    | nil => exact ⟨rfl, (List.cons.inj h).2⟩
    | cons e b =>
      obtain ⟨rfl, -⟩ := List.cons.inj h
      simp at hb
  | cons d a ih =>
    cases b with
    | nil =>
      obtain ⟨rfl, -⟩ := List.cons.inj h
      simp at ha
    | cons e b =>
      obtain ⟨rfl, hrest⟩ := List.cons.inj h
      simp only [List.mem_cons, not_or] at ha hb
      obtain ⟨rfl, htail⟩ := ih ha.2 hb.2 hrest
      exact ⟨rfl, htail⟩

theorem append_cons_prefix_iff {α : Type*} {a b x y : List α} {c : α} (ha : c ∉ a) (hb : c ∉ b) :
    a ++ c :: x <+: b ++ c :: y ↔ a = b ∧ x <+: y := by
  constructor
  · rintro ⟨t, h⟩
    rw [List.append_assoc, List.cons_append] at h
    obtain ⟨rfl, hrest⟩ := append_cons_inj_of_notMem ha hb h
    exact ⟨rfl, t, hrest⟩
  · rintro ⟨rfl, t, rfl⟩
    exact ⟨t, by simp⟩

section Lexicographic

variable {α : Type*} [LinearOrder α]

@[simp] theorem append_lt_append_left_iff {p a b : List α} : p ++ a < p ++ b ↔ a < b := by
  induction p with
  | nil => rfl
  | cons c p ih => simp [ih]

@[simp] theorem append_le_append_left_iff {p a b : List α} : p ++ a ≤ p ++ b ↔ a ≤ b := by
  rw [← not_lt, ← not_lt, append_lt_append_left_iff]

theorem le_append (p s : List α) : p ≤ p ++ s := by
  have h : p ++ [] ≤ p ++ s := append_le_append_left_iff.mpr (by simp [← not_lt])
  simpa using h

theorem append_lt_append_iff {a b : List α} (h : a.length = b.length) (x y : List α) :
    a ++ x < b ++ y ↔ a < b ∨ a = b ∧ x < y := by
  induction a generalizing b with
  | nil =>
    cases b with
    | nil => simp
    | cons d b => simp at h
  | cons c a ih =>
    cases b with
    | nil => simp at h
    | cons d b =>
      have hl : a.length = b.length := by simpa using h
      simp only [List.cons_append, List.cons_lt_cons_iff, ih hl, List.cons.injEq]
      tauto

theorem lt_append_of_lt {p key : List α} (h : key < p) (s : List α) : key < p ++ s :=
  lt_of_lt_of_le h (le_append p s)

theorem append_lt_of_lt {p key : List α} (h : p < key) (hp : ¬ p <+: key) (s : List α) :
    p ++ s < key := by
  induction p generalizing key with
  | nil => exact absurd (List.nil_prefix) hp
  | cons c p ih =>
    cases key with
    | nil => simp at h
    | cons d key =>
      rcases List.cons_lt_cons_iff.mp h with hlt | ⟨rfl, hlt⟩
      · exact List.cons_lt_cons_iff.mpr (.inl hlt)
      · refine List.cons_lt_cons_iff.mpr (.inr ⟨rfl, ih hlt fun hpre => hp ?_⟩)
        exact List.cons_prefix_cons.mpr ⟨rfl, hpre⟩

/-- The keys with a front are those from it to the front with its last byte raised by one,
when no byte lies between the two. -/
theorem prefix_iff_mem_range {p key : List α} {a b : α} (hab : a ⋖ b) :
    p ++ [a] <+: key ↔ p ++ [a] ≤ key ∧ key < p ++ [b] := by
  constructor
  · rintro ⟨s, rfl⟩
    refine ⟨le_append _ s, ?_⟩
    rw [List.append_assoc, append_lt_append_left_iff]
    exact List.cons_lt_cons_iff.mpr (.inl hab.lt)
  · rintro ⟨hle, hlt⟩
    by_contra hn
    rcases hle.eq_or_lt with rfl | hgt
    · exact hn (List.prefix_refl _)
    · induction p generalizing key with
      | nil =>
        cases key with
        | nil => simp at hgt
        | cons d key =>
          rcases List.cons_lt_cons_iff.mp hgt with had | ⟨rfl, -⟩
          · rcases List.cons_lt_cons_iff.mp hlt with hdb | ⟨-, hnil⟩
            · exact hab.2 had hdb
            · simp at hnil
          · exact hn (List.cons_prefix_cons.mpr ⟨rfl, List.nil_prefix⟩)
      | cons c p ih =>
        cases key with
        | nil => simp at hgt
        | cons d key =>
          have hgt' := List.cons_lt_cons_iff.mp hgt
          have hlt' := List.cons_lt_cons_iff.mp hlt
          obtain rfl : c = d := by
            rcases hgt' with h | ⟨rfl, -⟩
            · rcases hlt' with h' | ⟨rfl, -⟩
              · exact absurd (h.trans h') (lt_irrefl _)
              · rfl
            · rfl
          simp only [lt_irrefl, true_and, false_or] at hgt' hlt'
          exact ih hgt'.le hlt' (fun hpre => hn (List.cons_prefix_cons.mpr ⟨rfl, hpre⟩)) hgt'

end Lexicographic

section BigEndian

instance instLinearOrderUInt8 : LinearOrder UInt8 where
  le_refl _ := UInt8.le_refl _
  le_trans _ _ _ := UInt8.le_trans
  le_antisymm _ _ := UInt8.le_antisymm
  le_total := UInt8.le_total
  lt_iff_le_not_ge a b := by
    rw [UInt8.lt_iff_toNat_lt, UInt8.le_iff_toNat_le, UInt8.le_iff_toNat_le]
    omega
  toDecidableLE := inferInstance

/-- The lowest `width` bytes of a number, most significant byte first. -/
def bigEndian : (width n : ℕ) → List UInt8
  | 0, _ => []
  | width + 1, n => bigEndian width (n / 256) ++ [UInt8.ofNat n]

/-- The number of a byte string, most significant byte first. -/
def ofBigEndian (bytes : List UInt8) : ℕ :=
  bytes.foldl (fun n byte => n * 256 + byte.toNat) 0

@[simp] theorem length_bigEndian (width n : ℕ) : (bigEndian width n).length = width := by
  induction width generalizing n with
  | zero => rfl
  | succ width ih => simp [bigEndian, ih]

theorem ofBigEndian_bigEndian {width n : ℕ} (h : n < 256 ^ width) :
    ofBigEndian (bigEndian width n) = n := by
  induction width generalizing n with
  | zero =>
    have hn : n = 0 := by simpa using h
    rw [hn]
    rfl
  | succ width ih =>
    have hdiv : n / 256 < 256 ^ width := Nat.div_lt_of_lt_mul (by rwa [Nat.pow_succ'] at h)
    have hrec := ih hdiv
    unfold ofBigEndian at hrec
    rw [ofBigEndian, bigEndian, List.foldl_append, hrec]
    simp only [List.foldl_cons, List.foldl_nil, UInt8.toNat_ofNat']
    omega

theorem bigEndian_inj {width a b : ℕ} (ha : a < 256 ^ width) (hb : b < 256 ^ width) :
    bigEndian width a = bigEndian width b ↔ a = b := by
  constructor
  · intro h
    rw [← ofBigEndian_bigEndian ha, h, ofBigEndian_bigEndian hb]
  · rintro rfl
    rfl

/-- Big-endian numbers of one width compare like the numbers. -/
theorem bigEndian_lt_iff {width a b : ℕ} (ha : a < 256 ^ width) (hb : b < 256 ^ width) :
    bigEndian width a < bigEndian width b ↔ a < b := by
  induction width generalizing a b with
  | zero =>
    have ha' : a = 0 := by simpa using ha
    have hb' : b = 0 := by simpa using hb
    simp [ha', hb', bigEndian]
  | succ width ih =>
    have ha' : a / 256 < 256 ^ width := Nat.div_lt_of_lt_mul (by rwa [Nat.pow_succ'] at ha)
    have hb' : b / 256 < 256 ^ width := Nat.div_lt_of_lt_mul (by rwa [Nat.pow_succ'] at hb)
    have hlast : ([UInt8.ofNat a] : List UInt8) < [UInt8.ofNat b] ↔ a % 256 < b % 256 := by
      simp [List.cons_lt_cons_iff, UInt8.lt_iff_toNat_lt]
    rw [bigEndian, bigEndian, append_lt_append_iff (by simp), ih ha' hb', bigEndian_inj ha' hb',
      hlast]
    omega

end BigEndian

section Utf8

def utf8 (text : String) : List UInt8 := text.toByteArray.data.toList

def ofUtf8 (bytes : List UInt8) : Option String := String.fromUTF8? ⟨bytes.toArray⟩

theorem utf8_injective : Function.Injective utf8 := by
  intro s t h
  exact String.toByteArray_inj.mp (ByteArray.ext (Array.toList_inj.mp h))

@[simp] theorem utf8_inj {s t : String} : utf8 s = utf8 t ↔ s = t := utf8_injective.eq_iff

@[simp] theorem length_utf8 (text : String) : (utf8 text).length = text.utf8ByteSize := by
  simp [utf8, ← String.size_toByteArray]

@[simp] theorem utf8_append (s t : String) : utf8 (s ++ t) = utf8 s ++ utf8 t := by
  simp [utf8, String.toByteArray_append]

@[simp] theorem ofUtf8_utf8 (text : String) : ofUtf8 (utf8 text) = some text := by
  have h : (⟨(utf8 text).toArray⟩ : ByteArray) = text.toByteArray := by
    apply ByteArray.ext
    simp [utf8]
  rw [ofUtf8, h, String.fromUTF8?, dif_pos text.isValidUTF8]
  rfl

theorem utf8_eq_flatMap (text : String) :
    utf8 text = text.toList.flatMap String.utf8EncodeChar := by
  rw [utf8, ← String.utf8Encode_toList]
  simp [List.utf8Encode]

theorem utf8EncodeChar_of_ascii {c : Char} (h : c.toNat ≤ 127) :
    String.utf8EncodeChar c = [UInt8.ofNat c.toNat] :=
  if_pos h

theorem length_utf8_of_ascii {text : String} (h : ∀ c ∈ text.toList, c.toNat ≤ 127) :
    (utf8 text).length = text.toList.length := by
  have hone : text.toList.map (fun c => (String.utf8EncodeChar c).length) =
      text.toList.map fun _ => 1 := by
    refine List.map_congr_left fun c hc => ?_
    rw [utf8EncodeChar_of_ascii (h c hc)]
    rfl
  rw [utf8_eq_flatMap, List.length_flatMap, hone]
  simp

theorem toNat_le_of_isAlphanum {c : Char} (h : c.isAlphanum = true) : c.toNat ≤ 127 := by
  have hv : c.toNat = c.val.toNat := rfl
  simp only [Char.isAlphanum, Char.isAlpha, Char.isUpper, Char.isLower, Char.isDigit,
    Bool.or_eq_true, Bool.and_eq_true, decide_eq_true_eq, UInt32.le_iff_toNat_le, ge_iff_le] at h
  rw [hv]
  have := c.val.toNat
  simp at h
  omega

theorem mem_utf8EncodeChar_iff {c : Char} {b : UInt8} (hb : b.toNat ≤ 127) :
    b ∈ String.utf8EncodeChar c ↔ c.toNat = b.toNat := by
  have hv : c.toNat = c.val.toNat := rfl
  rw [hv]
  unfold String.utf8EncodeChar
  simp only
  generalize c.val.toNat = v at *
  split_ifs <;> simp only [List.mem_cons, List.not_mem_nil, or_false, ← UInt8.toNat_inj,
    UInt8.toNat_ofNat'] <;> omega

theorem not_mem_utf8 {text : String} {d : Char} (hd : d.toNat ≤ 127) (h : d ∉ text.toList) :
    UInt8.ofNat d.toNat ∉ utf8 text := by
  have hb : (UInt8.ofNat d.toNat).toNat = d.toNat := by
    rw [UInt8.toNat_ofNat']
    omega
  rw [utf8_eq_flatMap]
  intro hmem
  obtain ⟨c, hc, hcb⟩ := List.mem_flatMap.mp hmem
  have heq := (mem_utf8EncodeChar_iff (by omega)).mp hcb
  rw [hb] at heq
  exact h (Char.toNat_inj.mp heq ▸ hc)

theorem utf8EncodeChar_append_lt {c d : Char} (h : c < d) (x y : List UInt8) :
    String.utf8EncodeChar c ++ x < String.utf8EncodeChar d ++ y := by
  have hcd : c.val.toNat < d.val.toNat := h
  have hd : d.val.toNat < 1114112 := by
    have := d.valid
    rcases this with h | h <;> omega
  unfold String.utf8EncodeChar
  simp only
  generalize c.val.toNat = v at *
  generalize d.val.toNat = w at *
  have hv : v / 4096 = v / 64 / 64 ∧ v / 262144 = v / 64 / 64 / 64 := by omega
  have hw : w / 4096 = w / 64 / 64 ∧ w / 262144 = w / 64 / 64 / 64 := by omega
  have step : ∀ a b : ℕ, a < b → a / 64 < b / 64 ∨ a / 64 = b / 64 ∧ a % 64 < b % 64 := by omega
  have hgroups := step v w hcd
  have hgroups' := step (v / 64) (w / 64)
  have hgroups'' := step (v / 64 / 64) (w / 64 / 64)
  have hv' : (v / 64 / 64 / 64 % 8 + 240) % 256 = v / 64 / 64 / 64 + 240 := by omega
  have hw' : (w / 64 / 64 / 64 % 8 + 240) % 256 = w / 64 / 64 / 64 + 240 := by omega
  have hlow : ∀ n, (n % 64 + 128) % 256 = n % 64 + 128 := by omega
  split_ifs <;>
    simp only [List.cons_append, List.nil_append, List.cons_lt_cons_iff, UInt8.lt_iff_toNat_lt,
      ← UInt8.toNat_inj, UInt8.toNat_ofNat', hv.1, hv.2, hw.1, hw.2, hv', hw',
      hlow] <;>
    omega

theorem flatMap_utf8EncodeChar_lt {l m : List Char} (h : l < m) :
    l.flatMap String.utf8EncodeChar < m.flatMap String.utf8EncodeChar := by
  induction l generalizing m with
  | nil =>
    cases m with
    | nil => simp at h
    | cons d m =>
      have hne : String.utf8EncodeChar d ≠ [] := String.utf8EncodeChar_ne_nil
      obtain ⟨b, bs, hb⟩ := List.exists_cons_of_ne_nil hne
      simp [hb]
  | cons c l ih =>
    cases m with
    | nil => simp at h
    | cons d m =>
      rw [List.flatMap_cons, List.flatMap_cons]
      rcases List.cons_lt_cons_iff.mp h with hlt | ⟨rfl, hlt⟩
      · exact utf8EncodeChar_append_lt hlt _ _
      · exact append_lt_append_left_iff.mpr (ih hlt)

/-- Texts compare like their bytes. -/
theorem utf8_lt_iff {s t : String} : utf8 s < utf8 t ↔ s < t := by
  have mono : ∀ {s t : String}, s < t → utf8 s < utf8 t := by
    intro s t h
    rw [utf8_eq_flatMap, utf8_eq_flatMap]
    exact flatMap_utf8EncodeChar_lt (String.lt_iff_toList_lt.mp h)
  refine ⟨fun h => ?_, mono⟩
  rcases lt_trichotomy s t with hlt | rfl | hgt
  · exact hlt
  · exact absurd h (lt_irrefl _)
  · exact absurd (h.trans (mono hgt)) (lt_irrefl _)

end Utf8

end Bytes
