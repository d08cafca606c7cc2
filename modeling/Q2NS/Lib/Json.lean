import Mathlib.Data.List.Basic
import Mathlib.Data.Nat.Digits.Lemmas

/-!
# JSON texts

A reader of JSON texts over bytes, and rules for texts that a program puts together from
parts: what each part is read as, whatever comes after it.
-/

namespace Q2NS.Json

abbrev Bytes := List UInt8

/-- The bytes of a text of ASCII characters. -/
def ascii (s : String) : Bytes := s.toList.map fun c => c.toNat.toUInt8

/-- A JSON value.  A number is kept as it is written. -/
inductive Value where
  | null
  | bool (b : Bool)
  | number (token : Bytes)
  | string (s : Bytes)
  | array (elements : List Value)
  | object (members : List (Bytes × Value))

/-! ## The reader -/

def quote : UInt8 := 0x22

def backslash : UInt8 := 0x5C

def comma : UInt8 := 0x2C

def colon : UInt8 := 0x3A

/-- White space. -/
def isSpace (b : UInt8) : Bool := b = 0x20 ∨ b = 0x09 ∨ b = 0x0A ∨ b = 0x0D

def skipSpace (bs : Bytes) : Bytes := bs.dropWhile isSpace

def isDigit (b : UInt8) : Bool := 0x30 ≤ b ∧ b ≤ 0x39

/-- The bytes that a number is written with. -/
def isNumberByte (b : UInt8) : Bool :=
  isDigit b ∨ b = 0x2B ∨ b = 0x2D ∨ b = 0x2E ∨ b = 0x45 ∨ b = 0x65

/-- At least one digit and nothing else. -/
def isDigits (bs : Bytes) : Bool := bs ≠ [] ∧ bs.all isDigit

/-- `[eE][+-]?[0-9]+`, or nothing. -/
def isExponent : Bytes → Bool
  | [] => true
  | e :: rest => (e = 0x45 ∨ e = 0x65) ∧
      (isDigits rest ∨ (rest.head? = some 0x2B ∨ rest.head? = some 0x2D) ∧ isDigits rest.tail)

/-- `(\.[0-9]+)?` and an exponent. -/
def isFraction : Bytes → Bool
  | [] => true
  | b :: rest =>
      if b = 0x2E then
        rest.takeWhile isDigit ≠ [] ∧ isExponent (rest.dropWhile isDigit)
      else isExponent (b :: rest)

/-- `0|[1-9][0-9]*` and a fraction. -/
def isUnsigned (bs : Bytes) : Bool :=
  bs.takeWhile isDigit ≠ [] ∧
    (bs.head? = some 0x30 → bs.takeWhile isDigit = [0x30]) ∧
    isFraction (bs.dropWhile isDigit)

/-- A number of the grammar. -/
def isNumber (bs : Bytes) : Bool :=
  if bs.head? = some 0x2D then isUnsigned bs.tail else isUnsigned bs

def hexDigit (b : UInt8) : Option ℕ :=
  if isDigit b then some (b.toNat - 0x30)
  else if 0x41 ≤ b ∧ b ≤ 0x46 then some (b.toNat - 0x37)
  else if 0x61 ≤ b ∧ b ≤ 0x66 then some (b.toNat - 0x57)
  else none

/-- A code unit in UTF-8, each half of a surrogate pair by itself. -/
def utf8 (u : ℕ) : Bytes :=
  if u < 0x80 then [UInt8.ofNat u]
  else if u < 0x800 then [UInt8.ofNat (0xC0 + u / 64), UInt8.ofNat (0x80 + u % 64)]
  else [UInt8.ofNat (0xE0 + u / 4096), UInt8.ofNat (0x80 + u / 64 % 64),
    UInt8.ofNat (0x80 + u % 64)]

/-- The escapes of one letter. -/
def shortEscapes : List (UInt8 × UInt8) :=
  [(0x22, 0x22), (0x5C, 0x5C), (0x2F, 0x2F), (0x62, 0x08), (0x66, 0x0C), (0x6E, 0x0A),
    (0x72, 0x0D), (0x74, 0x09)]

/-- What follows a backslash. -/
def escape : Bytes → Option (Bytes × Bytes)
  | [] => none
  | e :: rest =>
      if e = 0x75 then
        match rest with
        | a :: b :: c :: d :: rest => do
            let a ← hexDigit a
            let b ← hexDigit b
            let c ← hexDigit c
            let d ← hexDigit d
            return (utf8 (a * 4096 + b * 256 + c * 16 + d), rest)
        | _ => none
      else (shortEscapes.lookup e).map fun b => ([b], rest)

/-- The characters up to the closing quote. -/
def chars : ℕ → Bytes → Option (Bytes × Bytes)
  | 0, _ => none
  | _ + 1, [] => none
  | fuel + 1, b :: rest =>
      if b = quote then some ([], rest)
      else if b = backslash then
        (escape rest).bind fun e => (chars fuel e.2).map fun t => (e.1 ++ t.1, t.2)
      else if b < 0x20 then none
      else (chars fuel rest).map fun t => (b :: t.1, t.2)

/-- A string. -/
def string : Bytes → Option (Bytes × Bytes)
  | [] => none
  | b :: rest => if b = quote then chars (rest.length + 1) rest else none

/-- Items with commas between them, and the byte that closes them. -/
def separated {α : Type} (item : Bytes → Option (α × Bytes)) (close : UInt8) :
    ℕ → Bytes → Option (List α × Bytes)
  | 0, _ => none
  | fuel + 1, bs =>
      (item bs).bind fun x =>
        match skipSpace x.2 with
        | [] => none
        | b :: rest =>
            if b = close then some ([x.1], rest)
            else if b = comma then
              (separated item close fuel rest).map fun xs => (x.1 :: xs.1, xs.2)
            else none

/-- The items of a list that may be empty. -/
def items {α : Type} (item : Bytes → Option (α × Bytes)) (close : UInt8) (fuel : ℕ)
    (bs : Bytes) : Option (List α × Bytes) :=
  match skipSpace bs with
  | [] => none
  | b :: rest => if b = close then some ([], rest) else separated item close fuel bs

/-- A member of an object. -/
def member (value : Bytes → Option (Value × Bytes)) (bs : Bytes) :
    Option ((Bytes × Value) × Bytes) :=
  (string (skipSpace bs)).bind fun key =>
    match skipSpace key.2 with
    | [] => none
    | b :: rest => if b = colon then (value rest).map fun v => ((key.1, v.1), v.2) else none

/-- A literal name. -/
def literal (name : Bytes) (v : Value) (bs : Bytes) : Option (Value × Bytes) :=
  if name.isPrefixOf bs then some (v, bs.drop name.length) else none

/-- A value, and what is left of the text. -/
def value : ℕ → Bytes → Option (Value × Bytes)
  | 0, _ => none
  | fuel + 1, bs =>
      match skipSpace bs with
      | [] => none
      | b :: rest =>
          if b = quote then (chars (rest.length + 1) rest).map fun s => (.string s.1, s.2)
          else if b = 0x5B then
            (items (value fuel) 0x5D fuel rest).map fun vs => (.array vs.1, vs.2)
          else if b = 0x7B then
            (items (member (value fuel)) 0x7D fuel rest).map fun ms => (.object ms.1, ms.2)
          else if b = 0x6E then literal (ascii "null") .null (b :: rest)
          else if b = 0x74 then literal (ascii "true") (.bool true) (b :: rest)
          else if b = 0x66 then literal (ascii "false") (.bool false) (b :: rest)
          else if isNumber ((b :: rest).takeWhile isNumberByte) then
            some (.number ((b :: rest).takeWhile isNumberByte),
              (b :: rest).dropWhile isNumberByte)
          else none

/-- A text that is one value. -/
def parse (bs : Bytes) : Option Value :=
  (value bs.length bs).bind fun v => if skipSpace v.2 = [] then some v.1 else none

/-! ## What texts are read as -/

/-- What comes after a value does not go on with a number. -/
def Delimited (rest : Bytes) : Prop := ∀ b, rest.head? = some b → isNumberByte b = false

/-- A text that is read as a string. -/
def IsString (bs s : Bytes) : Prop :=
  ∃ tail, bs = quote :: tail ∧ ∀ fuel rest, tail.length ≤ fuel →
    chars fuel (tail ++ rest) = some (s, rest)

/-- A text that is read as a value. -/
structure Reads (bs : Bytes) (v : Value) : Prop where
  opens : ∃ b tail, bs = b :: tail ∧ isSpace b = false ∧ b ≠ 0x5D ∧ b ≠ 0x7D
  value : ∀ fuel rest, bs.length ≤ fuel → Delimited rest →
    value fuel (bs ++ rest) = some (v, rest)

/-- A text that is read as a member of an object. -/
def IsMember (bs : Bytes) (m : Bytes × Value) : Prop :=
  ∃ keyText valueText, bs = keyText ++ colon :: valueText ∧ IsString keyText m.1 ∧
    Reads valueText m.2

/-- Items with commas between them, and the byte that closes them. -/
def joined (close : UInt8) : List Bytes → Bytes
  | [] => [close]
  | [x] => x ++ [close]
  | x :: y :: xs => x ++ comma :: joined close (y :: xs)

theorem skipSpace_cons {b : UInt8} (hb : isSpace b = false) (rest : Bytes) :
    skipSpace (b :: rest) = b :: rest :=
  List.dropWhile_cons_of_neg (by rw [hb]; exact Bool.false_ne_true)

theorem delimited_cons {b : UInt8} (hb : isNumberByte b = false) (rest : Bytes) :
    Delimited (b :: rest) := by
  intro c hc
  obtain rfl := Option.some.inj hc
  exact hb

theorem length_le_joined (close : UInt8) : ∀ (xs : List Bytes),
    xs.length ≤ (joined close xs).length ∧ ∀ x ∈ xs, x.length ≤ (joined close xs).length
  | [] => ⟨Nat.zero_le _, fun _ hx => absurd hx List.not_mem_nil⟩
  | [x] => by simp [joined]
  | x :: y :: xs => by
      obtain ⟨hlen, hall⟩ := length_le_joined close (y :: xs)
      simp only [joined, List.length_append, List.length_cons, List.mem_cons,
        forall_eq_or_imp] at hlen hall ⊢
      refine ⟨by omega, by omega, by omega, fun z hz => ?_⟩
      have hz := hall.2 z hz
      omega

/-! ## Strings -/

theorem IsString.read {bs s : Bytes} (h : IsString bs s) (rest : Bytes) :
    string (bs ++ rest) = some (s, rest) := by
  obtain ⟨tail, rfl, htail⟩ := h
  rw [List.cons_append, string, if_pos rfl]
  exact htail _ rest (by rw [List.length_append]; omega)

/-- A string of characters that each are read as a byte. -/
theorem isString_flatMap {enc : UInt8 → Bytes}
    (henc : ∀ b fuel rest, chars (fuel + 1) (enc b ++ rest) =
      (chars fuel rest).map fun t => (b :: t.1, t.2))
    (hne : ∀ b, enc b ≠ []) (s : Bytes) :
    IsString (quote :: (s.flatMap enc ++ [quote])) s := by
  refine ⟨_, rfl, ?_⟩
  induction s with
  | nil =>
      intro fuel rest hfuel
      cases fuel with
      | zero => exact absurd hfuel (by simp)
      | succ fuel => rfl
  | cons b s ih =>
      intro fuel rest hfuel
      have hpos := List.length_pos_iff.mpr (hne b)
      simp only [List.flatMap_cons, List.length_append] at hfuel ih
      cases fuel with
      | zero => omega
      | succ fuel =>
          have hrest := ih fuel rest (by omega)
          rw [List.append_assoc] at hrest
          rw [List.flatMap_cons, List.append_assoc, List.append_assoc, henc, hrest]
          rfl

theorem Reads.string {bs s : Bytes} (h : IsString bs s) : Reads bs (.string s) := by
  obtain ⟨tail, rfl, htail⟩ := h
  refine ⟨⟨quote, tail, rfl, by decide, by decide, by decide⟩, ?_⟩
  intro fuel rest hfuel _
  cases fuel with
  | zero => exact absurd hfuel (by simp)
  | succ fuel =>
      rw [Json.value, List.cons_append, skipSpace_cons (by decide)]
      simp only [if_true]
      rw [htail _ rest (by rw [List.length_append]; omega), Option.map_some]

/-- An escape is read the same whatever comes after it. -/
theorem escape_append {bs x rest : Bytes} (h : escape bs = some (x, [])) :
    escape (bs ++ rest) = some (x, rest) := by
  cases bs with
  | nil => exact absurd h (by simp [escape])
  | cons e tail =>
      by_cases he : e = 0x75
      · subst he
        cases tail with
        | nil => exact absurd h (by simp [escape])
        | cons a tail =>
        cases tail with
        | nil => exact absurd h (by simp [escape])
        | cons b tail =>
        cases tail with
        | nil => exact absurd h (by simp [escape])
        | cons c tail =>
        cases tail with
        | nil => exact absurd h (by simp [escape])
        | cons d tail =>
          simp only [escape, List.cons_append, if_true] at h ⊢
          cases ha : hexDigit a <;> cases hb : hexDigit b <;> cases hc : hexDigit c <;>
            cases hd : hexDigit d <;> simp_all
      · simp only [escape, List.cons_append, if_neg he] at h ⊢
        cases hlookup : shortEscapes.lookup e <;> simp_all

/-- A byte that stands for itself. -/
theorem chars_raw {b : UInt8} (hquote : b ≠ quote) (hbackslash : b ≠ backslash)
    (hb : 0x20 ≤ b) (fuel : ℕ) (rest : Bytes) :
    chars (fuel + 1) (b :: rest) = (chars fuel rest).map fun t => (b :: t.1, t.2) := by
  rw [chars, if_neg hquote, if_neg hbackslash, if_neg (UInt8.not_lt.mpr hb)]

/-- An escaped byte. -/
theorem chars_escape {bs : Bytes} {b : UInt8} (h : escape bs = some ([b], [])) (fuel : ℕ)
    (rest : Bytes) : chars (fuel + 1) (backslash :: (bs ++ rest)) =
      (chars fuel rest).map fun t => (b :: t.1, t.2) := by
  rw [chars, if_neg (by decide), if_pos rfl, escape_append h, Option.bind_some]
  rfl

/-! ## Numbers -/

theorem Reads.number {token : Bytes} (hnumber : isNumber token)
    (hbytes : ∀ b ∈ token, isNumberByte b) : Reads token (.number token) := by
  cases token with
  | nil => exact absurd hnumber (by decide)
  | cons b tail =>
      have hb := hbytes b List.mem_cons_self
      have hne : ∀ c, isNumberByte c = false → b ≠ c := by
        rintro c hc rfl
        rw [hb] at hc
        exact absurd hc (by simp)
      have hspace : isSpace b = false := by
        rw [isSpace, decide_eq_false_iff_not]
        rintro (h | h | h | h)
        · exact hne _ (by decide) h
        · exact hne _ (by decide) h
        · exact hne _ (by decide) h
        · exact hne _ (by decide) h
      refine ⟨⟨b, tail, rfl, hspace, hne _ (by decide), hne _ (by decide)⟩, ?_⟩
      intro fuel rest hfuel hrest
      have htake : (b :: tail ++ rest).takeWhile isNumberByte = b :: tail := by
        rw [List.takeWhile_append_of_pos hbytes]
        cases rest with
        | nil => rw [List.takeWhile_nil, List.append_nil]
        | cons c rest =>
            rw [List.takeWhile_cons_of_neg (by rw [hrest c rfl]; exact Bool.false_ne_true),
              List.append_nil]
      have hdrop : (b :: tail ++ rest).dropWhile isNumberByte = rest := by
        rw [List.dropWhile_append_of_pos hbytes]
        cases rest with
        | nil => rfl
        | cons c rest =>
            exact List.dropWhile_cons_of_neg (by rw [hrest c rfl]; exact Bool.false_ne_true)
      cases fuel with
      | zero => exact absurd hfuel (by simp)
      | succ fuel =>
          rw [List.cons_append] at htake hdrop ⊢
          rw [Json.value, skipSpace_cons hspace]
          simp only [htake, hdrop, hnumber, if_true, if_neg (hne quote (by decide)),
            if_neg (hne 0x5B (by decide)), if_neg (hne 0x7B (by decide)),
            if_neg (hne 0x6E (by decide)), if_neg (hne 0x74 (by decide)),
            if_neg (hne 0x66 (by decide))]

/-! ## Lists -/

section Lists

variable {α : Type} {item : Bytes → Option (α × Bytes)} {close : UInt8}

/-- Items are read one after the other. -/
theorem separated_joined (hclose : close = 0x5D ∨ close = 0x7D) {xs : List (Bytes × α)}
    (hxs : ∀ x ∈ xs, ∀ rest, Delimited rest → item (x.1 ++ rest) = some (x.2, rest))
    (hne : xs ≠ []) {fuel : ℕ} (hfuel : xs.length ≤ fuel) (rest : Bytes) :
    separated item close fuel (joined close (xs.map Prod.fst) ++ rest) =
      some (xs.map Prod.snd, rest) := by
  obtain ⟨hspace, hnumber, hcomma⟩ :
      isSpace close = false ∧ isNumberByte close = false ∧ comma ≠ close := by
    rcases hclose with rfl | rfl
    · decide
    · decide
  induction xs generalizing fuel with
  | nil => exact absurd rfl hne
  | cons x xs ih =>
      cases fuel with
      | zero => exact absurd hfuel (by simp)
      | succ fuel =>
          have hx := hxs x List.mem_cons_self
          cases xs with
          | nil =>
              rw [List.map_singleton, joined, List.append_assoc, separated,
                List.singleton_append, hx _ (delimited_cons hnumber rest), Option.bind_some]
              simp only [skipSpace_cons hspace, if_true]
              rfl
          | cons y xs =>
              have hrest := ih (fun z hz => hxs z (List.mem_cons_of_mem x hz))
                (List.cons_ne_nil y xs) (Nat.le_of_succ_le_succ hfuel)
              rw [List.map_cons] at hrest
              rw [List.map_cons, List.map_cons, joined, List.append_assoc, separated,
                List.cons_append, hx _ (delimited_cons (by decide) _), Option.bind_some]
              simp only [skipSpace_cons (show isSpace comma = false by decide),
                if_neg hcomma, if_true]
              rw [hrest]
              rfl

variable (item close) in
/-- A list that may be empty. -/
theorem items_joined (hclose : close = 0x5D ∨ close = 0x7D) {xs : List (Bytes × α)}
    (hxs : ∀ x ∈ xs, ∀ rest, Delimited rest → item (x.1 ++ rest) = some (x.2, rest))
    (hopens : ∀ x ∈ xs, ∃ b tail, x.1 = b :: tail ∧ isSpace b = false ∧ b ≠ 0x5D ∧ b ≠ 0x7D)
    {fuel : ℕ} (hfuel : xs.length ≤ fuel) (rest : Bytes) :
    items item close fuel (joined close (xs.map Prod.fst) ++ rest) =
      some (xs.map Prod.snd, rest) := by
  have hspace : isSpace close = false := by
    rcases hclose with rfl | rfl
    · decide
    · decide
  cases xs with
  | nil =>
      rw [items, List.map_nil, joined, List.singleton_append, skipSpace_cons hspace]
      simp only [if_true]
      rfl
  | cons x xs =>
      obtain ⟨b, tail, hb, hbspace, hbracket, hbrace⟩ := hopens x List.mem_cons_self
      have hne : b ≠ close := by
        rcases hclose with rfl | rfl
        · exact hbracket
        · exact hbrace
      have hhead : ∃ more, joined close ((x :: xs).map Prod.fst) ++ rest = b :: more := by
        cases xs with
        | nil => exact ⟨_, by rw [List.map_singleton, joined, hb]; rfl⟩
        | cons y xs => exact ⟨_, by rw [List.map_cons, List.map_cons, joined, hb]; rfl⟩
      obtain ⟨more, hmore⟩ := hhead
      have hsep := separated_joined hclose hxs (List.cons_ne_nil x xs) hfuel rest
      rw [hmore] at hsep ⊢
      rw [items, skipSpace_cons hbspace]
      simp only [if_neg hne]
      exact hsep

end Lists

theorem Reads.array {xs : List (Bytes × Value)} (hxs : ∀ x ∈ xs, Reads x.1 x.2) :
    Reads (0x5B :: joined 0x5D (xs.map Prod.fst)) (.array (xs.map Prod.snd)) := by
  refine ⟨⟨_, _, rfl, by decide, by decide, by decide⟩, ?_⟩
  intro fuel rest hfuel _
  obtain ⟨hlen, hall⟩ := length_le_joined 0x5D (xs.map Prod.fst)
  rw [List.length_map] at hlen
  cases fuel with
  | zero => exact absurd hfuel (by simp)
  | succ fuel =>
      have hfuel := Nat.le_of_succ_le_succ hfuel
      have hitems := items_joined (Json.value fuel) 0x5D (.inl rfl)
        (fun x hx rest hrest => (hxs x hx).value fuel rest
          ((hall x.1 (List.mem_map_of_mem hx)).trans hfuel) hrest)
        (fun x hx => (hxs x hx).opens) (hlen.trans hfuel) rest
      rw [Json.value, List.cons_append, skipSpace_cons (by decide)]
      simp only [if_neg (show (0x5B : UInt8) ≠ quote by decide), if_true]
      rw [hitems, Option.map_some]

/-! ## Objects -/

theorem IsMember.read {bs : Bytes} {m : Bytes × Value} (h : IsMember bs m) {fuel : ℕ}
    (hfuel : bs.length ≤ fuel) {rest : Bytes} (hrest : Delimited rest) :
    member (Json.value fuel) (bs ++ rest) = some (m, rest) := by
  obtain ⟨keyText, valueText, rfl, hkey, hvalue⟩ := h
  have hread := hkey.read (colon :: (valueText ++ rest))
  obtain ⟨tail, rfl, -⟩ := hkey
  have hlen : valueText.length ≤ fuel := by
    simp only [List.length_append, List.length_cons] at hfuel
    omega
  have htext : quote :: tail ++ colon :: valueText ++ rest =
      quote :: (tail ++ colon :: (valueText ++ rest)) := by
    rw [List.append_assoc]
    rfl
  rw [List.cons_append] at hread
  rw [htext, member, skipSpace_cons (by decide), hread, Option.bind_some]
  simp only [skipSpace_cons (show isSpace colon = false by decide), if_true]
  rw [hvalue.value fuel rest hlen hrest]
  rfl

theorem IsMember.opens {bs : Bytes} {m : Bytes × Value} (h : IsMember bs m) :
    ∃ b tail, bs = b :: tail ∧ isSpace b = false ∧ b ≠ 0x5D ∧ b ≠ 0x7D := by
  obtain ⟨keyText, valueText, rfl, ⟨tail, rfl, -⟩, -⟩ := h
  exact ⟨_, _, rfl, by decide, by decide, by decide⟩

theorem Reads.object {xs : List (Bytes × (Bytes × Value))}
    (hxs : ∀ x ∈ xs, IsMember x.1 x.2) :
    Reads (0x7B :: joined 0x7D (xs.map Prod.fst)) (.object (xs.map Prod.snd)) := by
  refine ⟨⟨_, _, rfl, by decide, by decide, by decide⟩, ?_⟩
  intro fuel rest hfuel _
  obtain ⟨hlen, hall⟩ := length_le_joined 0x7D (xs.map Prod.fst)
  rw [List.length_map] at hlen
  cases fuel with
  | zero => exact absurd hfuel (by simp)
  | succ fuel =>
      have hfuel := Nat.le_of_succ_le_succ hfuel
      have hitems := items_joined (member (Json.value fuel)) 0x7D (.inr rfl)
        (fun x hx rest hrest => (hxs x hx).read
          ((hall x.1 (List.mem_map_of_mem hx)).trans hfuel) hrest)
        (fun x hx => (hxs x hx).opens) (hlen.trans hfuel) rest
      rw [Json.value, List.cons_append, skipSpace_cons (by decide)]
      simp only [if_neg (show (0x7B : UInt8) ≠ quote by decide),
        if_neg (show (0x7B : UInt8) ≠ 0x5B by decide), if_true]
      rw [hitems, Option.map_some]

/-- A text that is read as a value is one. -/
theorem Reads.parse {bs : Bytes} {v : Value} (h : Reads bs v) : parse bs = some v := by
  have hread := h.value bs.length [] le_rfl fun b hb => absurd hb (by simp)
  rw [List.append_nil] at hread
  rw [Json.parse, hread]
  rfl

end Q2NS.Json
