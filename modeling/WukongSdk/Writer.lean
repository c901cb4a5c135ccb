import WukongSdk.Value

/-!
# Compact JSON text and its size

What `Value::to_string` writes: no blanks, fields in key order, and in strings
an escape for the double quote, the backslash and the characters below the
space. The decimal form of a double is a parameter. `width` counts the bytes
without writing them.
-/
namespace WukongSdk.Json

/-- The short escapes, and the letter each is written with. -/
def shortEscape (c : Char) : Option Char :=
  [('\x22', '\x22'), ('\x5c', '\x5c'), ('\x08', 'b'), ('\x09', 't'), ('\x0a', 'n'),
    ('\x0c', 'f'), ('\x0d', 'r')].lookup c

/-- A character inside a string. -/
def escape (c : Char) : String :=
  match shortEscape c with
  | some letter => String.ofList ['\x5c', letter]
  | none =>
    if c.toNat < 32 then
      String.ofList ['\x5c', 'u', '0', '0', (c.toNat / 16).digitChar, (c.toNat % 16).digitChar]
    else String.singleton c

def quoted (s : String) : String := "\"" ++ String.join (s.toList.map escape) ++ "\""

section

variable (float : UInt64 → String)

def number : Number → String
  | .posInt n => toString n.toNat
  | .negInt n => toString n.toInt
  | .float bits => float bits

mutual

def serialize : Value → String
  | .null => "null"
  | .bool true => "true"
  | .bool false => "false"
  | .number n => number float n
  | .string s => quoted s
  | .array items => "[" ++ serializeItems items ++ "]"
  | .object fields => "\x7b" ++ serializeFields fields ++ "\x7d"

def serializeItems : List Value → String
  | [] => ""
  | [v] => serialize v
  | v :: w :: rest => serialize v ++ "," ++ serializeItems (w :: rest)

def serializeFields : List (String × Value) → String
  | [] => ""
  | [(key, v)] => quoted key ++ ":" ++ serialize v
  | (key, v) :: f :: rest => quoted key ++ ":" ++ serialize v ++ "," ++ serializeFields (f :: rest)

end

end

/-! ## Sizes -/

/-- Bytes of a character inside a string. -/
def escapeWidth (c : Char) : ℕ :=
  if (shortEscape c).isSome then 2 else if c.toNat < 32 then 6 else c.utf8Size

/-- Bytes of a string between its quotes. -/
def textWidth (s : String) : ℕ := (s.toList.map escapeWidth).sum

/-- Digits of a number in decimal. -/
def digits (n : ℕ) : ℕ := (Nat.toDigits 10 n).length

theorem size_singleton (c : Char) : (String.singleton c).utf8ByteSize = c.utf8Size :=
  String.utf8ByteSize_singleton

theorem size_ofList (l : List Char) :
    (String.ofList l).utf8ByteSize = (l.map Char.utf8Size).sum := by
  induction l with
  | nil => rfl
  | cons c l ih =>
    have hcons : String.ofList (c :: l) = String.singleton c ++ String.ofList l := by
      rw [String.singleton_eq_ofList, ← String.ofList_append, List.singleton_append]
    rw [hcons, String.utf8ByteSize_append, size_singleton, ih, List.map_cons, List.sum_cons]

theorem size_join (l : List String) :
    (String.join l).utf8ByteSize = (l.map String.utf8ByteSize).sum := by
  have hfold : ∀ (l : List String) (acc : String),
      (l.foldl (fun r s => r ++ s) acc).utf8ByteSize
        = acc.utf8ByteSize + (l.map String.utf8ByteSize).sum := by
    intro l
    induction l with
    | nil => simp
    | cons s l ih =>
      intro acc
      rw [List.foldl_cons, ih, String.utf8ByteSize_append, List.map_cons, List.sum_cons]
      omega
  simpa [String.join] using hfold l ""

/-- The letter of a short escape takes one byte. -/
theorem utf8Size_shortEscape {c letter : Char} (h : shortEscape c = some letter) :
    letter.utf8Size = 1 := by
  obtain ⟨before, after, hl, -⟩ := List.lookup_eq_some_iff.mp h
  have hmem : (c, letter) ∈ [('\x22', '\x22'), ('\x5c', '\x5c'), ('\x08', 'b'), ('\x09', 't'),
      ('\x0a', 'n'), ('\x0c', 'f'), ('\x0d', 'r')] := by simp [hl]
  have hall : ∀ p ∈ [('\x22', '\x22'), ('\x5c', '\x5c'), ('\x08', 'b'), ('\x09', 't'),
      ('\x0a', 'n'), ('\x0c', 'f'), ('\x0d', 'r')], p.2.utf8Size = 1 := by decide
  exact hall _ hmem

/-- A hexadecimal digit takes one byte. -/
theorem utf8Size_digitChar {n : ℕ} (h : n < 16) : n.digitChar.utf8Size = 1 := by
  have hall : ∀ n < 16, n.digitChar.utf8Size = 1 := by decide
  exact hall n h

theorem size_escape (c : Char) : (escape c).utf8ByteSize = escapeWidth c := by
  unfold escape escapeWidth
  cases hs : shortEscape c with
  | some letter =>
    rw [size_ofList]
    have hletter := utf8Size_shortEscape hs
    simp only [List.map_cons, List.map_nil, List.sum_cons, List.sum_nil, hletter]
    rfl
  | none =>
    by_cases hc : c.toNat < 32
    · have hhigh := utf8Size_digitChar (n := c.toNat / 16) (by omega)
      have hlow := utf8Size_digitChar (n := c.toNat % 16) (by omega)
      simp only [hc, if_true, size_ofList, List.map_cons, List.map_nil, List.sum_cons,
        List.sum_nil, hhigh, hlow]
      rfl
    · simp [hc]

theorem size_quoted (s : String) : (quoted s).utf8ByteSize = textWidth s + 2 := by
  have hbody : (s.toList.map escape).map String.utf8ByteSize = s.toList.map escapeWidth := by
    simp [size_escape]
  have hquote : ("\"" : String).utf8ByteSize = 1 := rfl
  rw [quoted, String.utf8ByteSize_append, String.utf8ByteSize_append, size_join, hbody, hquote,
    textWidth]
  omega

theorem size_decimal (n : ℕ) : (toString n).utf8ByteSize = digits n := by
  have hone : ∀ c ∈ Nat.toDigits 10 n, c.utf8Size = 1 := by
    intro c hc
    have hdigit := Char.isDigit_iff_toNat.mp (Nat.isDigit_of_mem_toDigits (by norm_num) le_rfl hc)
    rw [Char.utf8Size_eq_one_iff, UInt32.le_iff_toNat_le]
    exact hdigit.2.trans (by decide)
  rw [Nat.toString_eq_ofList_toDigits, size_ofList, List.map_congr_left hone, List.map_const',
    List.sum_replicate, digits, smul_eq_mul, mul_one]

section

variable (float : UInt64 → String)

mutual

/-- Bytes of the compact text of a value. -/
def width : Value → ℕ
  | .null => 4
  | .bool true => 4
  | .bool false => 5
  | .number n => (number float n).utf8ByteSize
  | .string s => textWidth s + 2
  | .array items => widthItems items + 2
  | .object fields => widthFields fields + 2

def widthItems : List Value → ℕ
  | [] => 0
  | [v] => width v
  | v :: w :: rest => width v + 1 + widthItems (w :: rest)

def widthFields : List (String × Value) → ℕ
  | [] => 0
  | [(key, v)] => textWidth key + 3 + width v
  | (key, v) :: f :: rest => textWidth key + 3 + width v + 1 + widthFields (f :: rest)

end

mutual

theorem size_serialize (v : Value) : (serialize float v).utf8ByteSize = width float v := by
  cases v with
  | null => rfl
  | bool b => cases b <;> rfl
  | number n => rfl
  | string s => exact size_quoted s
  | array items =>
    have hitems := size_serializeItems items
    simp only [serialize, width, String.utf8ByteSize_append, hitems]
    have hopen : ("[" : String).utf8ByteSize = 1 := rfl
    have hclose : ("]" : String).utf8ByteSize = 1 := rfl
    omega
  | object fields =>
    have hfields := size_serializeFields fields
    simp only [serialize, width, String.utf8ByteSize_append, hfields]
    have hopen : ("\x7b" : String).utf8ByteSize = 1 := rfl
    have hclose : ("\x7d" : String).utf8ByteSize = 1 := rfl
    omega

theorem size_serializeItems (items : List Value) :
    (serializeItems float items).utf8ByteSize = widthItems float items := by
  match items with
  | [] => rfl
  | [v] => exact size_serialize v
  | v :: w :: rest =>
    have hhead := size_serialize v
    have htail := size_serializeItems (w :: rest)
    have hcomma : ("," : String).utf8ByteSize = 1 := rfl
    simp only [serializeItems, widthItems, String.utf8ByteSize_append, hhead, htail, hcomma]

theorem size_serializeFields (fields : List (String × Value)) :
    (serializeFields float fields).utf8ByteSize = widthFields float fields := by
  have hcolon : (":" : String).utf8ByteSize = 1 := rfl
  match fields with
  | [] => rfl
  | [(key, v)] =>
    have hvalue := size_serialize v
    simp only [serializeFields, widthFields, String.utf8ByteSize_append, size_quoted, hvalue, hcolon]
  | (key, v) :: f :: rest =>
    have hvalue := size_serialize v
    have htail := size_serializeFields (f :: rest)
    have hcomma : ("," : String).utf8ByteSize = 1 := rfl
    simp only [serializeFields, widthFields, String.utf8ByteSize_append, size_quoted, hvalue, htail,
      hcolon, hcomma]

end

end

end WukongSdk.Json
