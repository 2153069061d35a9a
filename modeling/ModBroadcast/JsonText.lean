import Mathlib.Data.List.Basic
import Mathlib.Data.Nat.Notation

namespace JsonText

abbrev Text := List Char

/-- An octet that stands for itself in a string; one of 128 or more begins a character of UTF-8. -/
def plain (c : Char) : Bool := 0x20 ≤ c.toNat && c.toNat < 0x80 && c != '"' && c != '\\'

def escapes (c : Char) : Bool := c ∈ ['"', '\\', '/', 'b', 'f', 'n', 'r', 't']

def hexDigit (c : Char) : Bool :=
  c.isDigit || ('a' ≤ c && c ≤ 'f') || ('A' ≤ c && c ≤ 'F')

def between (lo hi : ℕ) (c : Char) : Bool := lo ≤ c.toNat && c.toNat ≤ hi

/-- After the first octet of a character of UTF-8: the bounds of the second, and how many octets
follow that one. -/
def lead (c : Char) : Option (ℕ × ℕ × ℕ) :=
  if between 0xC2 0xDF c then some (0x80, 0xBF, 0)
  else if between 0xE0 0xE0 c then some (0xA0, 0xBF, 1)
  else if between 0xED 0xED c then some (0x80, 0x9F, 1)
  else if between 0xE1 0xEF c then some (0x80, 0xBF, 1)
  else if between 0xF0 0xF0 c then some (0x90, 0xBF, 2)
  else if between 0xF1 0xF3 c then some (0x80, 0xBF, 2)
  else if between 0xF4 0xF4 c then some (0x80, 0x8F, 2)
  else none

inductive Body : Text → Prop
  | nil : Body []
  | plain {c : Char} {b : Text} (hc : plain c) (hb : Body b) : Body (c :: b)
  | escape {c : Char} {b : Text} (hc : escapes c) (hb : Body b) : Body ('\\' :: c :: b)
  | unicode {h b : Text} (hl : h.length = 4) (hh : ∀ c ∈ h, hexDigit c) (hb : Body b) :
      Body ('\\' :: 'u' :: (h ++ b))
  | utf8 {c d : Char} {t b : Text} {lo hi n : ℕ} (hc : lead c = some (lo, hi, n))
      (hd : between lo hi d) (hl : t.length = n) (ht : ∀ x ∈ t, between 0x80 0xBF x)
      (hb : Body b) : Body (c :: d :: (t ++ b))

def Digits (t : Text) : Prop := t ≠ [] ∧ ∀ c ∈ t, c.isDigit

def IntPart (t : Text) : Prop :=
  t = ['0'] ∨ ∃ c d, c.isDigit ∧ c ≠ '0' ∧ (∀ x ∈ d, x.isDigit) ∧ t = c :: d

def FracPart (t : Text) : Prop := t = [] ∨ ∃ d, Digits d ∧ t = '.' :: d

def ExpPart (t : Text) : Prop :=
  t = [] ∨ ∃ e s d, (e = 'e' ∨ e = 'E') ∧ (s = [] ∨ s = ['+'] ∨ s = ['-']) ∧ Digits d ∧
    t = e :: (s ++ d)

def IsNumber (t : Text) : Prop :=
  ∃ s i f x, (s = [] ∨ s = ['-']) ∧ IntPart i ∧ FracPart f ∧ ExpPart x ∧ t = s ++ (i ++ (f ++ x))

def blank (c : Char) : Bool := c ∈ [' ', '\t', '\n', '\r']

def Blank (w : Text) : Prop := ∀ c ∈ w, blank c

def quote (b : Text) : Text := '"' :: (b ++ ['"'])

def words : List Text := ["true".toList, "false".toList, "null".toList]

inductive Part
  | value | element | elements | member | members

inductive Reads : Part → Text → List Text → Prop
  | word {w : Text} (hw : w ∈ words) : Reads .value w []
  | number {w : Text} (hw : IsNumber w) : Reads .value w []
  | string {b : Text} (hb : Body b) : Reads .value (quote b) [b]
  | emptyArray {w : Text} (hw : Blank w) : Reads .value ('[' :: (w ++ [']'])) []
  | array {w : Text} {l : List Text} (hw : Reads .elements w l) :
      Reads .value ('[' :: (w ++ [']'])) l
  | emptyObject {w : Text} (hw : Blank w) : Reads .value ('\x7b' :: (w ++ ['\x7d'])) []
  | object {w : Text} {l : List Text} (hw : Reads .members w l) :
      Reads .value ('\x7b' :: (w ++ ['\x7d'])) l
  | element {u v w : Text} {l : List Text} (hu : Blank u) (hv : Reads .value v l) (hw : Blank w) :
      Reads .element (u ++ (v ++ w)) l
  | lastElement {w : Text} {l : List Text} (hw : Reads .element w l) : Reads .elements w l
  | consElement {v w : Text} {l l' : List Text} (hv : Reads .element v l)
      (hw : Reads .elements w l') : Reads .elements (v ++ ',' :: w) (l ++ l')
  | member {u b v w : Text} {l : List Text} (hu : Blank u) (hb : Body b) (hv : Blank v)
      (hw : Reads .element w l) : Reads .member (u ++ (quote b ++ (v ++ ':' :: w))) (b :: l)
  | lastMember {w : Text} {l : List Text} (hw : Reads .member w l) : Reads .members w l
  | consMember {v w : Text} {l l' : List Text} (hv : Reads .member v l)
      (hw : Reads .members w l') : Reads .members (v ++ ',' :: w) (l ++ l')

/-- The text is one JSON object, and these are its strings. -/
def IsObject (t : Text) (l : List Text) : Prop :=
  ∃ u v w, Blank u ∧ (Blank v ∧ l = [] ∨ Reads .members v l) ∧ Blank w ∧
    t = u ++ '\x7b' :: (v ++ '\x7d' :: w)

end JsonText
