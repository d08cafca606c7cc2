import Q2NS.Viz.TraceWriter
import Mathlib.Data.List.DropRight

/-!
# Traces

The `Trace*` functions, each of which writes a line that is a JSON object, and the
reader of the lines in the viewer.
-/

namespace Q2NS.Viz

open Json

/-! ## What is written -/

/-- What `operator<<` writes for a number that is not negative. -/
def decimal (n : ℕ) : Bytes :=
  if n = 0 then [0x30]
  else (Nat.digits 10 n).reverse.map fun d => UInt8.ofNat (0x30 + d)

/-- What `operator<<` writes for an integer. -/
def number (i : ℤ) : Bytes := if i < 0 then 0x2D :: decimal i.natAbs else decimal i.natAbs

/-- The loop over the bits in `TraceEntangle`. -/
def bitsFrom (first : Bool) : List Bytes → Bytes
  | [] => []
  | b :: bits => (if first then [] else ascii ",") ++ (J b ++ bitsFrom false bits)

/-- The calls of the `Trace*` functions. -/
inductive Call where
  | createNode (label : Bytes) (xPct yPct : ℤ)
  | createChannel (fromNode toNode kind : Bytes)
  | createBit (node bitLabel kind color : Bytes)
  | setBitColor (bitLabel color : Bytes)
  | entangle (bits : List Bytes)
  | entangleFor (bits : List Bytes) (duration_ns : ℕ)
  | measure (bitLabel base : Bytes)
  | measureFor (bitLabel : Bytes) (duration_ns : ℕ) (base : Bytes)
  | graphMeasure (bitLabel base supportNode : Bytes)
  | graphMeasureFor (bitLabel : Bytes) (duration_ns : ℕ) (base supportNode : Bytes)
  | removeBit (bitLabel : Bytes) (t_ns : ℕ)
  | sendBit (bitLabel fromNode toNode kind : Bytes) (t0_ns t1_ns : ℕ)
  | sendPacket (fromNode toNode : Bytes) (t0_ns t1_ns : ℕ) (label : Bytes)
  | traceString (text : Bytes)
  | nodeTextString (node text : Bytes)

/-- `supportNode`, if there is one. -/
def supportText (supportNode : Bytes) : Bytes :=
  if supportNode ≠ [] then ascii ",\"supportNode\":" ++ J supportNode else []

/-- The line that a call writes; `now` is `JTns()`. -/
def Call.line (now : ℕ) : Call → Bytes
  | .createNode label xPct yPct => [ascii "\x7b",
      ascii "\"type\":\"createNode\",\"t_ns\":0,",
      ascii "\"label\":", J label, ascii ",\"x\":", number xPct, ascii ",\"y\":",
      number yPct, ascii "\x7d"].flatten
  | .createChannel fromNode toNode kind => [ascii "\x7b",
      ascii "\"type\":\"createChannel\",\"t_ns\":0,",
      ascii "\"from\":", J fromNode, ascii ",\"to\":", J toNode, ascii ",\"kind\":", J kind,
      ascii "\x7d"].flatten
  | .createBit node bitLabel kind color => [ascii "\x7b",
      ascii "\"type\":\"createBit\",\"t_ns\":", number now, ascii ",\"node\":", J node,
      ascii ",\"label\":", J bitLabel, ascii ",\"kind\":", J kind, ascii ",\"color\":",
      J color, ascii "\x7d"].flatten
  | .setBitColor bitLabel color => [ascii "\x7b",
      ascii "\"type\":\"setBitColor\",\"t_ns\":", number now, ascii ",\"bit\":", J bitLabel,
      ascii ",\"color\":", J color, ascii "\x7d"].flatten
  | .entangle bits => [ascii "\x7b",
      ascii "\"type\":\"entangle\",\"t_ns\":", number now, ascii ",\"bits\":[",
      bitsFrom true bits, ascii "]\x7d"].flatten
  | .entangleFor bits duration_ns => [ascii "\x7b",
      ascii "\"type\":\"entangle\",\"t_ns\":", number now, ascii ",\"duration_ns\":",
      number duration_ns, ascii ",\"bits\":[", bitsFrom true bits, ascii "]\x7d"].flatten
  | .measure bitLabel base => [ascii "\x7b",
      ascii "\"type\":\"measure\",\"t_ns\":", number now, ascii ",\"bit\":", J bitLabel,
      ascii ",\"base\":", J base, ascii "\x7d"].flatten
  | .measureFor bitLabel duration_ns base => [ascii "\x7b",
      ascii "\"type\":\"measure\",\"t_ns\":", number now, ascii ",\"duration_ns\":",
      number duration_ns, ascii ",\"bit\":", J bitLabel, ascii ",\"base\":", J base,
      ascii "\x7d"].flatten
  | .graphMeasure bitLabel base supportNode => [ascii "\x7b",
      ascii "\"type\":\"graphMeasure\",\"t_ns\":", number now, ascii ",\"bit\":",
      J bitLabel, ascii ",\"base\":", J base, supportText supportNode, ascii "\x7d"].flatten
  | .graphMeasureFor bitLabel duration_ns base supportNode => [ascii "\x7b",
      ascii "\"type\":\"graphMeasure\",\"t_ns\":", number now, ascii ",\"duration_ns\":",
      number duration_ns, ascii ",\"bit\":", J bitLabel, ascii ",\"base\":", J base,
      supportText supportNode, ascii "\x7d"].flatten
  | .removeBit bitLabel t_ns => [ascii "\x7b",
      ascii "\"type\":\"removeBit\",",
      ascii "\"t_ns\":", number t_ns, ascii ",\"bit\":", J bitLabel, ascii "\x7d"].flatten
  | .sendBit bitLabel fromNode toNode kind t0_ns t1_ns => [ascii "\x7b",
      ascii "\"type\":\"sendBit\",\"t0_ns\":", number t0_ns, ascii ",\"t1_ns\":",
      number t1_ns, ascii ",\"bit\":", J bitLabel, ascii ",\"from\":", J fromNode,
      ascii ",\"to\":", J toNode, ascii ",\"kind\":", J kind, ascii "\x7d"].flatten
  | .sendPacket fromNode toNode t0_ns t1_ns label => [ascii "\x7b",
      ascii "\"type\":\"sendPacket\",\"t0_ns\":", number t0_ns, ascii ",\"t1_ns\":",
      number t1_ns, ascii ",\"from\":", J fromNode, ascii ",\"to\":", J toNode,
      ascii ",\"label\":", J label, ascii "\x7d"].flatten
  | .traceString text => [ascii "\x7b",
      ascii "\"type\":\"traceText\",\"t_ns\":", number now, ascii ",\"text\":", J text,
      ascii "\x7d"].flatten
  | .nodeTextString node text => [ascii "\x7b",
      ascii "\"type\":\"traceText\",\"t_ns\":", number now, ascii ",\"node\":", J node,
      ascii ",\"text\":", J text, ascii "\x7d"].flatten

/-- The file after calls at their times. -/
def traceFile (calls : List (ℕ × Call)) : Bytes :=
  calls.foldl (fun file c => write file (c.2.line c.1)) []

/-! ## The viewer -/

/-- What `trim` takes away, of one byte. -/
def isTrimmed (b : UInt8) : Bool := b = 0x20 ∨ 0x09 ≤ b ∧ b ≤ 0x0D

/-- `trim`. -/
def trim (txt : Bytes) : Bytes := (txt.dropWhile isTrimmed).rdropWhile isTrimmed

/-- `parseNdjson`; `none` when `JSON.parse` throws. -/
def parseNdjson (txt : Bytes) : Option (List Value) :=
  let trimmed := trim txt
  if trimmed ≠ [] then (trimmed.splitOn 0x0A).mapM parse else some []

/-! ## What a call means -/

/-- A field of a record. -/
inductive Field where
  | text (s : Bytes)
  | int (i : ℤ)
  | texts (ss : List Bytes)

def Field.value : Field → Value
  | .text s => .string s
  | .int i => .number (number i)
  | .texts ss => .array (ss.map .string)

/-- The record of a call: its type, its times and its arguments. -/
def Call.record (now : ℕ) : Call → List (String × Field)
  | .createNode label xPct yPct => [("type", .text (ascii "createNode")), ("t_ns", .int 0),
      ("label", .text label), ("x", .int xPct), ("y", .int yPct)]
  | .createChannel fromNode toNode kind => [("type", .text (ascii "createChannel")),
      ("t_ns", .int 0), ("from", .text fromNode), ("to", .text toNode), ("kind", .text kind)]
  | .createBit node bitLabel kind color => [("type", .text (ascii "createBit")),
      ("t_ns", .int now), ("node", .text node), ("label", .text bitLabel),
      ("kind", .text kind), ("color", .text color)]
  | .setBitColor bitLabel color => [("type", .text (ascii "setBitColor")),
      ("t_ns", .int now), ("bit", .text bitLabel), ("color", .text color)]
  | .entangle bits => [("type", .text (ascii "entangle")), ("t_ns", .int now),
      ("bits", .texts bits)]
  | .entangleFor bits duration_ns => [("type", .text (ascii "entangle")),
      ("t_ns", .int now), ("duration_ns", .int duration_ns), ("bits", .texts bits)]
  | .measure bitLabel base => [("type", .text (ascii "measure")), ("t_ns", .int now),
      ("bit", .text bitLabel), ("base", .text base)]
  | .measureFor bitLabel duration_ns base => [("type", .text (ascii "measure")),
      ("t_ns", .int now), ("duration_ns", .int duration_ns), ("bit", .text bitLabel),
      ("base", .text base)]
  | .graphMeasure bitLabel base supportNode => [("type", .text (ascii "graphMeasure")),
      ("t_ns", .int now), ("bit", .text bitLabel), ("base", .text base)] ++
      if supportNode ≠ [] then [("supportNode", .text supportNode)] else []
  | .graphMeasureFor bitLabel duration_ns base supportNode =>
      [("type", .text (ascii "graphMeasure")), ("t_ns", .int now),
        ("duration_ns", .int duration_ns), ("bit", .text bitLabel), ("base", .text base)] ++
      if supportNode ≠ [] then [("supportNode", .text supportNode)] else []
  | .removeBit bitLabel t_ns => [("type", .text (ascii "removeBit")), ("t_ns", .int t_ns),
      ("bit", .text bitLabel)]
  | .sendBit bitLabel fromNode toNode kind t0_ns t1_ns => [("type", .text (ascii "sendBit")),
      ("t0_ns", .int t0_ns), ("t1_ns", .int t1_ns), ("bit", .text bitLabel),
      ("from", .text fromNode), ("to", .text toNode), ("kind", .text kind)]
  | .sendPacket fromNode toNode t0_ns t1_ns label => [("type", .text (ascii "sendPacket")),
      ("t0_ns", .int t0_ns), ("t1_ns", .int t1_ns), ("from", .text fromNode),
      ("to", .text toNode), ("label", .text label)]
  | .traceString text => [("type", .text (ascii "traceText")), ("t_ns", .int now),
      ("text", .text text)]
  | .nodeTextString node text => [("type", .text (ascii "traceText")), ("t_ns", .int now),
      ("node", .text node), ("text", .text text)]

/-- The object of a call. -/
def Call.object (now : ℕ) (c : Call) : Value :=
  .object ((c.record now).map fun f => (ascii f.1, f.2.value))

/-! ## Numbers -/

theorem decimal_digits (n : ℕ) : ∀ b ∈ decimal n, isDigit b := by
  rw [decimal]
  split_ifs with hn
  · decide +kernel
  · intro b hb
    obtain ⟨d, hd, rfl⟩ := List.mem_map.mp hb
    have hlt := Nat.digits_lt_base (by decide) (List.mem_reverse.mp hd)
    exact (show ∀ d < 10, isDigit (UInt8.ofNat (0x30 + d)) by decide) d hlt

theorem decimal_ne_nil (n : ℕ) : decimal n ≠ [] := by
  rw [decimal]
  split_ifs with hn
  · exact List.cons_ne_nil _ _
  · rw [Ne, List.map_eq_nil_iff, List.reverse_eq_nil_iff]
    exact Nat.digits_ne_nil_iff_ne_zero.mpr hn

/-- A number does not start with a zero, but for zero. -/
theorem decimal_head (n : ℕ) (h : (decimal n).head? = some 0x30) : decimal n = [0x30] := by
  rw [decimal] at h ⊢
  split_ifs at h ⊢ with hn
  · rfl
  · exfalso
    have hne : Nat.digits 10 n ≠ [] := Nat.digits_ne_nil_iff_ne_zero.mpr hn
    have hlast := Nat.getLast_digit_ne_zero 10 hn
    have hlt := Nat.digits_lt_base (b := 10) (by decide) (List.getLast_mem hne)
    rw [List.head?_map, List.head?_reverse, List.getLast?_eq_some_getLast hne,
      Option.map_some, Option.some.injEq] at h
    exact hlast ((show ∀ d < 10, UInt8.ofNat (0x30 + d) = 0x30 → d = 0 by decide) _ hlt h)

theorem isUnsigned_decimal (n : ℕ) : isUnsigned (decimal n) := by
  have htake : (decimal n).takeWhile isDigit = decimal n :=
    List.takeWhile_eq_self_iff.mpr (decimal_digits n)
  have hdrop : (decimal n).dropWhile isDigit = [] :=
    List.dropWhile_eq_nil_iff.mpr (decimal_digits n)
  rw [isUnsigned, htake, hdrop, decide_eq_true_eq]
  exact ⟨decimal_ne_nil n, decimal_head n, rfl⟩

theorem isNumberByte_decimal (n : ℕ) : ∀ b ∈ decimal n, isNumberByte b := by
  intro b hb
  rw [isNumberByte, decide_eq_true_eq]
  exact .inl (decimal_digits n b hb)

theorem reads_number (i : ℤ) : Reads (number i) (.number (number i)) := by
  rw [number]
  split_ifs
  · refine .number ?_ fun b hb => ?_
    · rw [isNumber, List.head?_cons, if_pos rfl]
      exact isUnsigned_decimal _
    · rcases List.mem_cons.mp hb with rfl | hb
      · decide
      · exact isNumberByte_decimal _ b hb
  · refine .number ?_ (isNumberByte_decimal _)
    rw [isNumber, if_neg]
    · exact isUnsigned_decimal _
    · intro hhead
      have hdigit := decimal_digits _ _ (List.mem_of_mem_head? hhead)
      exact absurd hdigit (by decide)

/-! ## Lines -/

/-- The text of a field. -/
def Field.written : Field → Bytes
  | .text s => J s
  | .int i => number i
  | .texts ss => 0x5B :: joined 0x5D (ss.map J)

theorem reads_written (f : Field) : Reads f.written f.value := by
  cases f with
  | text s => exact .string (isString_J s)
  | int i => exact reads_number i
  | texts ss =>
      have harray := Reads.array fun x (hx : x ∈ ss.map fun s => (J s, Value.string s)) => by
        obtain ⟨s, -, rfl⟩ := List.mem_map.mp hx
        exact .string (isString_J s)
      rw [List.map_map, List.map_map] at harray
      exact harray

theorem number_ge (i : ℤ) : ∀ b ∈ number i, 0x20 ≤ b := by
  have hdecimal : ∀ n, ∀ b ∈ decimal n, 0x20 ≤ b := by
    intro n b hb
    have hdigit := decimal_digits n b hb
    rw [isDigit, decide_eq_true_eq] at hdigit
    exact UInt8.le_trans (by decide) hdigit.1
  intro b hb
  rw [number] at hb
  split_ifs at hb
  · rcases List.mem_cons.mp hb with rfl | hb
    · decide
    · exact hdecimal _ b hb
  · exact hdecimal _ b hb

theorem joined_ge {close : UInt8} (hclose : 0x20 ≤ close) : ∀ {xs : List Bytes},
    (∀ x ∈ xs, ∀ b ∈ x, 0x20 ≤ b) → ∀ b ∈ joined close xs, 0x20 ≤ b
  | [], _, b, hb => List.mem_singleton.mp hb ▸ hclose
  | [x], hxs, b, hb => by
      rcases List.mem_append.mp hb with hb | hb
      · exact hxs x List.mem_cons_self b hb
      · exact List.mem_singleton.mp hb ▸ hclose
  | x :: y :: xs, hxs, b, hb => by
      rcases List.mem_append.mp hb with hb | hb
      · exact hxs x List.mem_cons_self b hb
      · rcases List.mem_cons.mp hb with rfl | hb
        · decide
        · exact joined_ge hclose (fun z hz => hxs z (List.mem_cons_of_mem x hz)) b hb

theorem written_ge (f : Field) : ∀ b ∈ f.written, 0x20 ≤ b := by
  cases f with
  | text s => exact J_ge s
  | int i => exact number_ge i
  | texts ss =>
      intro b hb
      rcases List.mem_cons.mp hb with rfl | hb
      · decide
      · refine joined_ge (by decide) (fun x hx => ?_) b hb
        obtain ⟨s, -, rfl⟩ := List.mem_map.mp hx
        exact J_ge s

/-- A field with its key. -/
def memberText (f : String × Field) : Bytes := J (ascii f.1) ++ colon :: f.2.written

/-- A record as an object. -/
def written (fields : List (String × Field)) : Bytes :=
  0x7B :: joined 0x7D (fields.map memberText)

theorem bitsFrom_eq (bits : List Bytes) (rest : Bytes) :
    bitsFrom true bits ++ 0x5D :: rest = joined 0x5D (bits.map J) ++ rest := by
  have hmore : ∀ (b : Bytes) (bits : List Bytes),
      J b ++ bitsFrom false bits ++ 0x5D :: rest =
        joined 0x5D ((b :: bits).map J) ++ rest := by
    intro b bits
    induction bits generalizing b with
    | nil =>
        rw [bitsFrom, List.append_nil, List.map_singleton, joined, List.append_assoc]
        rfl
    | cons c bits ih =>
        have hnext := ih c
        rw [List.map_cons] at hnext
        rw [List.map_cons, List.map_cons, joined, List.append_assoc (J b) _ rest,
          List.cons_append, ← hnext]
        simp only [bitsFrom, List.append_assoc]
        rfl
  cases bits with
  | nil => rfl
  | cons b bits => exact hmore b bits

/-- A call writes its record. -/
theorem Call.line_eq (now : ℕ) (c : Call) : c.line now = written (c.record now) := by
  cases c with
  | entangle bits =>
      rw [Call.line, Call.record, written]
      simp only [List.map_cons, List.map_nil, memberText, Field.written, List.flatten_cons,
        List.flatten_nil]
      exact congrArg (fun bs => ascii "\x7b\"type\":\"entangle\",\"t_ns\":" ++ (number now ++
        (ascii ",\"bits\":[" ++ bs))) (bitsFrom_eq bits [0x7D])
  | entangleFor bits duration_ns =>
      rw [Call.line, Call.record, written]
      simp only [List.map_cons, List.map_nil, memberText, Field.written, List.flatten_cons,
        List.flatten_nil]
      exact congrArg (fun bs => ascii "\x7b\"type\":\"entangle\",\"t_ns\":" ++ (number now ++
        (ascii ",\"duration_ns\":" ++ (number duration_ns ++
          (ascii ",\"bits\":[" ++ bs))))) (bitsFrom_eq bits [0x7D])
  | graphMeasure bitLabel base supportNode =>
      rw [Call.line, Call.record, written, supportText]
      split_ifs
      · simp only [List.cons_append, List.nil_append, List.map_cons, List.map_nil, memberText,
          Field.written]
        rfl
      · simp only [List.append_nil, List.map_cons, List.map_nil, memberText, Field.written]
        rfl
  | graphMeasureFor bitLabel duration_ns base supportNode =>
      rw [Call.line, Call.record, written, supportText]
      split_ifs
      · simp only [List.cons_append, List.nil_append, List.map_cons, List.map_nil, memberText,
          Field.written]
        rfl
      · simp only [List.append_nil, List.map_cons, List.map_nil, memberText, Field.written]
        rfl
  | _ =>
      rw [Call.line, Call.record, written]
      simp only [List.map_cons, List.map_nil, memberText, Field.written]
      rfl

theorem isMember_memberText (f : String × Field) :
    IsMember (memberText f) (ascii f.1, f.2.value) :=
  ⟨J (ascii f.1), f.2.written, rfl, isString_J _, reads_written f.2⟩

/-- The line of a call is read as its object. -/
theorem Call.reads_line (now : ℕ) (c : Call) : Reads (c.line now) (c.object now) := by
  rw [Call.line_eq, written, Call.object]
  have hobject := Reads.object fun x
      (hx : x ∈ (c.record now).map fun f => (memberText f, (ascii f.1, f.2.value))) => by
      obtain ⟨f, -, rfl⟩ := List.mem_map.mp hx
      exact isMember_memberText f
  rw [List.map_map, List.map_map] at hobject
  exact hobject

theorem Call.line_ge (now : ℕ) (c : Call) : ∀ b ∈ c.line now, 0x20 ≤ b := by
  rw [Call.line_eq, written]
  intro b hb
  rcases List.mem_cons.mp hb with rfl | hb
  · decide
  · refine joined_ge (by decide) (fun x hx d hd => ?_) b hb
    obtain ⟨f, -, rfl⟩ := List.mem_map.mp hx
    rcases List.mem_append.mp hd with hd | hd
    · exact J_ge _ d hd
    · rcases List.mem_cons.mp hd with rfl | hd
      · decide
      · exact written_ge f.2 d hd

theorem exists_joined (close : UInt8) : ∀ xs : List Bytes, ∃ m, joined close xs = m ++ [close]
  | [] => ⟨[], rfl⟩
  | [x] => ⟨x, rfl⟩
  | x :: y :: xs => by
      obtain ⟨m, hm⟩ := exists_joined close (y :: xs)
      exact ⟨x ++ comma :: m, by rw [joined, hm, List.append_assoc, List.cons_append]⟩

/-- A line is in braces. -/
theorem Call.line_braces (now : ℕ) (c : Call) : ∃ m, c.line now = 0x7B :: (m ++ [0x7D]) := by
  obtain ⟨m, hm⟩ := exists_joined 0x7D ((c.record now).map memberText)
  exact ⟨m, by rw [Call.line_eq, written, hm]⟩

/-! ## The whole file -/

/-- The lines of calls. -/
def lines (calls : List (ℕ × Call)) : List Bytes := calls.map fun c => c.2.line c.1

theorem traceFile_eq (calls : List (ℕ × Call)) :
    traceFile calls = (lines calls).flatMap (· ++ [0x0A]) := by
  have hfold : ∀ (file : Bytes), calls.foldl (fun file c => write file (c.2.line c.1)) file =
      file ++ (lines calls).flatMap (· ++ [0x0A]) := by
    induction calls with
    | nil => exact fun file => (List.append_nil file).symm
    | cons c calls ih =>
        intro file
        rw [List.foldl_cons, ih, write, List.append_assoc file, List.append_assoc file]
        rfl
  exact hfold []

/-- A file that is not empty is its lines with newlines between them, and one more. -/
theorem traceFile_cons (c : ℕ × Call) (calls : List (ℕ × Call)) : ∃ m,
    [0x0A].intercalate (lines (c :: calls)) = 0x7B :: (m ++ [0x7D]) ∧
      traceFile (c :: calls) = 0x7B :: (m ++ [0x7D]) ++ [0x0A] := by
  rw [traceFile_eq]
  induction calls generalizing c with
  | nil =>
      obtain ⟨m, hm⟩ := c.2.line_braces c.1
      refine ⟨m, ?_, ?_⟩
      · rw [lines, List.map_singleton, List.intercalate_singleton, hm]
      · rw [lines, List.map_singleton, List.flatMap_singleton, hm]
  | cons d calls ih =>
      obtain ⟨m, hbetween, hfile⟩ := ih d
      obtain ⟨k, hk⟩ := c.2.line_braces c.1
      refine ⟨k ++ 0x7D :: 0x0A :: 0x7B :: m, ?_, ?_⟩
      · rw [lines, List.map_cons] at hbetween
        rw [lines, List.map_cons, List.map_cons, List.intercalate_cons_cons, hbetween, hk]
        simp
      · rw [lines, List.map_cons, List.flatMap_cons]
        rw [lines] at hfile
        rw [hfile, hk]
        simp

theorem trim_braces (m : Bytes) :
    trim (0x7B :: (m ++ [0x7D]) ++ [0x0A]) = 0x7B :: (m ++ [0x7D]) := by
  rw [trim, List.cons_append, List.dropWhile_cons_of_neg (by decide), ← List.cons_append,
    List.rdropWhile_concat_pos _ _ _ (by decide), ← List.cons_append,
    List.rdropWhile_concat_neg _ _ _ (by decide)]

/-- The viewer reads back the objects of the calls, in order. -/
theorem parseNdjson_traceFile (calls : List (ℕ × Call)) :
    parseNdjson (traceFile calls) = some (calls.map fun c => c.2.object c.1) := by
  cases calls with
  | nil => rfl
  | cons c calls =>
      obtain ⟨m, hbetween, hfile⟩ := traceFile_cons c calls
      have hsplit : (0x7B :: (m ++ [0x7D]) : Bytes).splitOn 0x0A = lines (c :: calls) := by
        rw [← hbetween]
        refine List.splitOn_intercalate 0x0A (fun l hl hmem => ?_) (List.cons_ne_nil _ _)
        obtain ⟨d, -, rfl⟩ := List.mem_map.mp hl
        exact absurd (d.2.line_ge d.1 _ hmem) (by decide)
      have hparse : ∀ ds : List (ℕ × Call),
          (lines ds).mapM parse = some (ds.map fun d => d.2.object d.1) := by
        intro ds
        induction ds with
        | nil => rfl
        | cons d ds ih =>
            rw [lines] at ih
            rw [lines, List.map_cons, List.mapM_cons, (d.2.reads_line d.1).parse, ih]
            rfl
      rw [hfile, parseNdjson, trim_braces]
      simp only [if_pos (List.cons_ne_nil (0x7B : UInt8) (m ++ [0x7D]))]
      rw [hsplit]
      exact hparse (c :: calls)

/-- What is traced is read back: a string has no control bytes and no unescaped quotes
and is read as it was, different strings are written in different ways, and the file of
any calls has one object for each of them. -/
theorem trace_reads_back :
    (∀ s, (∀ b ∈ J s, 0x20 ≤ b) ∧
      (∃ body, J s = quote :: (body ++ [quote]) ∧ rawQuote false body = false) ∧
      string (J s) = some (s, [])) ∧
    Function.Injective J ∧
    ∀ calls : List (ℕ × Call), parseNdjson (traceFile calls) =
      some (calls.map fun c => c.2.object c.1) := by
  refine ⟨fun s => ⟨J_ge s, ⟨s.flatMap escaped, rfl, rawQuote_body s⟩, ?_⟩, J_injective,
    parseNdjson_traceFile⟩
  have hread := (isString_J s).read []
  rwa [List.append_nil] at hread

end Q2NS.Viz
