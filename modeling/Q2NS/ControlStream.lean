import Q2NS.Types
import Mathlib.Data.List.Basic
import Mathlib.Data.List.SplitLengths
import Mathlib.Data.Nat.Digits.Defs

/-!
# Control messages over a byte stream

A repeater writes each Bell-measurement result as one message whose first ten
bytes are the packed `CtrlHeader`; the sink reads a header from the start of each
packet it is handed.  TCP may cut the concatenation of the messages into packets
anywhere.  What the sink processes depends only on where the packets of at least
ten bytes start.
-/

namespace Q2NS

namespace ControlStream

abbrev Byte := BitVec 8

/-- `CtrlHeader`. -/
@[ext]
structure CtrlHeader where
  sid : BitVec 64
  m1 : Byte
  m2 : Byte
  deriving DecidableEq

/-- `sizeof(CtrlHeader)`. -/
def headerSize : ℕ := 10

/-- The bytes of a header in memory. -/
def CtrlHeader.pack (h : CtrlHeader) : List Byte :=
  (List.range 8).map (fun i => h.sid.extractLsb' (8 * i) 8) ++ [h.m1, h.m2]

/-- The header at the start of some bytes, copied byte by byte. -/
def CtrlHeader.copyFrom (bytes : List Byte) : CtrlHeader where
  sid := .ofNat 64 (Nat.ofDigits 256 ((bytes.take 8).map BitVec.toNat))
  m1 := bytes.getD 8 0#8
  m2 := bytes.getD 9 0#8

/-- The buffer that `MaybeDoBsmAndAnnounce` writes. -/
def message (payloadBytes : ℕ) (h : CtrlHeader) : List Byte :=
  h.pack ++ List.replicate (max headerSize payloadBytes - headerSize) 0#8

/-- What `OnCtrlRx` reads from one packet; smaller packets are dropped. -/
def onCtrlRx (pkt : List Byte) : Option CtrlHeader :=
  if pkt.length < headerSize then none else some (.copyFrom pkt)

/-- The headers that are processed, packet by packet. -/
def received (pkts : List (List Byte)) : List CtrlHeader := pkts.filterMap onCtrlRx

/-- The written messages one after the other. -/
def stream (payloadBytes : ℕ) (ms : List CtrlHeader) : List Byte :=
  ms.flatMap (message payloadBytes)

/-- Where the packets start that are not dropped; the first of them starts at
`o`. -/
def headerOffsets (o : ℕ) : List ℕ → List ℕ
  | [] => []
  | n :: lens =>
      if n < headerSize then headerOffsets (o + n) lens
      else o :: headerOffsets (o + n) lens

/-! ## Headers -/

@[simp] theorem length_pack (h : CtrlHeader) : h.pack.length = headerSize := rfl

theorem length_message (payloadBytes : ℕ) (h : CtrlHeader) :
    (message payloadBytes h).length = max headerSize payloadBytes := by
  rw [message, List.length_append, length_pack, List.length_replicate,
    Nat.add_sub_cancel' (Nat.le_max_left _ _)]

/-- A word is the number that its bytes are the digits of. -/
theorem ofDigits_bytes (x : BitVec 64) : Nat.ofDigits 256
    ((List.range 8).map fun i => (x.extractLsb' (8 * i) 8).toNat) = x.toNat := by
  have hx := x.isLt
  simp only [BitVec.extractLsb'_toNat, Nat.shiftRight_eq_div_pow, List.range_succ,
    List.range_zero, List.nil_append, List.cons_append, List.map_cons, List.map_nil,
    Nat.ofDigits_cons, Nat.ofDigits_nil]
  omega

/-- Reading back what was written, whatever follows. -/
theorem copyFrom_pack (h : CtrlHeader) (rest : List Byte) :
    CtrlHeader.copyFrom (h.pack ++ rest) = h := by
  have hsplit : h.pack ++ rest =
      (List.range 8).map (fun i => h.sid.extractLsb' (8 * i) 8) ++
        ([h.m1, h.m2] ++ rest) := List.append_assoc _ _ _
  have hlen : ((List.range 8).map fun i => h.sid.extractLsb' (8 * i) 8).length =
      8 := by rw [List.length_map, List.length_range]
  have hnat := ofDigits_bytes h.sid
  rw [hsplit, CtrlHeader.copyFrom, List.take_left' hlen, List.map_map]
  refine CtrlHeader.ext ?_ ?_ ?_
  · refine (congrArg (BitVec.ofNat 64) hnat).trans ?_
    rw [BitVec.ofNat_toNat, BitVec.setWidth_eq]
  · dsimp only
    rw [List.getD_eq_getElem?_getD, List.getElem?_append_right hlen.le, hlen]
    rfl
  · dsimp only
    rw [List.getD_eq_getElem?_getD,
      List.getElem?_append_right (hlen.le.trans (by decide)), hlen]
    rfl

/-- Only the first ten bytes matter. -/
theorem copyFrom_append {pkt : List Byte} (h : headerSize ≤ pkt.length)
    (rest : List Byte) :
    CtrlHeader.copyFrom (pkt ++ rest) = CtrlHeader.copyFrom pkt := by
  have hget : ∀ i < headerSize, (pkt ++ rest).getD i 0#8 = pkt.getD i 0#8 := by
    intro i hi
    rw [List.getD_eq_getElem?_getD, List.getD_eq_getElem?_getD,
      List.getElem?_append_left (Nat.lt_of_lt_of_le hi h)]
  have htake : (pkt ++ rest).take 8 = pkt.take 8 :=
    List.take_append_of_le_length (Nat.le_trans (by decide) h)
  have h8 := hget 8 (by decide)
  have h9 := hget 9 (by decide)
  rw [CtrlHeader.copyFrom, CtrlHeader.copyFrom, htake, h8, h9]

/-- The processed headers are those at the starts of the packets that are not
dropped. -/
theorem received_eq (pre : List Byte) (pkts : List (List Byte)) :
    received pkts = (headerOffsets pre.length (pkts.map List.length)).map
      fun o => .copyFrom ((pre ++ pkts.flatten).drop o) := by
  induction pkts generalizing pre with
  | nil => rfl
  | cons pkt pkts ih =>
      have hrest := ih (pre ++ pkt)
      rw [List.length_append, List.append_assoc] at hrest
      rw [List.map_cons, headerOffsets, List.flatten_cons, received,
        List.filterMap_cons, onCtrlRx]
      split_ifs with hsmall
      · exact hrest
      · rw [List.map_cons, List.drop_left, copyFrom_append (Nat.not_lt.mp hsmall)]
        exact congrArg _ hrest

/-! ## Every message exactly once -/

theorem stream_append (payloadBytes : ℕ) (ms ms' : List CtrlHeader) :
    stream payloadBytes (ms ++ ms') = stream payloadBytes ms ++ stream payloadBytes ms' :=
  List.flatMap_append

theorem length_stream (payloadBytes : ℕ) (ms : List CtrlHeader) :
    (stream payloadBytes ms).length = ms.length * max headerSize payloadBytes := by
  induction ms with
  | nil => simp [stream]
  | cons h ms ih =>
      rw [stream, List.flatMap_cons, List.length_append, length_message,
        List.length_cons, Nat.succ_mul, Nat.add_comm]
      exact congrArg (· + _) ih

/-- The header at the start of message `i`. -/
theorem copyFrom_stream (payloadBytes : ℕ) {ms : List CtrlHeader} {i : ℕ}
    (hi : i < ms.length) : CtrlHeader.copyFrom
      ((stream payloadBytes ms).drop (i * max headerSize payloadBytes)) = ms[i] := by
  have hsplit : ms = ms.take i ++ ms[i] :: ms.drop (i + 1) := by
    rw [← List.drop_eq_getElem_cons hi, List.take_append_drop]
  have htake : (stream payloadBytes (ms.take i)).length =
      i * max headerSize payloadBytes := by
    rw [length_stream, List.length_take, Nat.min_eq_left hi.le]
  have hstream : stream payloadBytes ms = stream payloadBytes (ms.take i) ++
      (message payloadBytes ms[i] ++ stream payloadBytes (ms.drop (i + 1))) := by
    conv_lhs => rw [hsplit, stream_append]
    rfl
  rw [hstream, List.drop_left' htake, message, List.append_assoc, copyFrom_pack]

def CtrlHeader.zero : CtrlHeader := ⟨0#64, 0#8, 0#8⟩

/-- The message with a one in the last byte of its header only. -/
def CtrlHeader.marked : CtrlHeader := ⟨0#64, 0#8, 1#8⟩

theorem stream_zero (payloadBytes n : ℕ) :
    stream payloadBytes (List.replicate n .zero) =
      List.replicate (n * max headerSize payloadBytes) 0#8 := by
  have hone : message payloadBytes .zero =
      List.replicate (max headerSize payloadBytes) 0#8 := by
    have hpack : CtrlHeader.zero.pack = List.replicate headerSize 0#8 := by decide
    rw [message, hpack, List.replicate_append_replicate,
      Nat.add_sub_cancel' (Nat.le_max_left _ _)]
  induction n with
  | zero => simp [stream]
  | succ n ih =>
      rw [List.replicate_succ', stream_append, ih, Nat.succ_mul,
        ← List.replicate_append_replicate]
      exact congrArg _ ((List.append_nil _).trans hone)

/-- Marking message `i` alone sets one byte of the stream, so a header read
elsewhere does not show the mark. -/
theorem offset_of_marked {payloadBytes i n o : ℕ}
    (h : CtrlHeader.copyFrom ((stream payloadBytes
      (List.replicate i .zero ++ .marked :: List.replicate n .zero)).drop o) =
        .marked) : o = i * max headerSize payloadBytes := by
  have hpack : CtrlHeader.marked.pack = List.replicate 9 0#8 ++ [1#8] := by decide
  have hstream : stream payloadBytes
      (List.replicate i .zero ++ .marked :: List.replicate n .zero) =
      List.replicate (i * max headerSize payloadBytes + 9) 0#8 ++ 1#8 ::
        List.replicate (max headerSize payloadBytes - headerSize +
          n * max headerSize payloadBytes) 0#8 := by
    have hcons : stream payloadBytes (.marked :: List.replicate n .zero) =
        message payloadBytes .marked ++ stream payloadBytes (List.replicate n .zero) :=
      rfl
    rw [stream_append, hcons, stream_zero, stream_zero, message, hpack,
      ← List.replicate_append_replicate, ← List.replicate_append_replicate]
    simp only [List.append_assoc, List.cons_append, List.nil_append]
  have hbyte := congrArg CtrlHeader.m2 h
  have hone : (1#8 : Byte) ≠ 0#8 := by decide
  rw [CtrlHeader.copyFrom, hstream, CtrlHeader.marked] at hbyte
  dsimp only at hbyte
  rw [List.getD_eq_getElem?_getD, List.getElem?_drop, List.getElem?_append,
    List.length_replicate] at hbyte
  by_contra hne
  split_ifs at hbyte with hlt
  · rw [List.getElem?_replicate, if_pos hlt] at hbyte
    exact hone hbyte.symm
  · obtain ⟨k, hk⟩ : ∃ k, o + 9 - (i * max headerSize payloadBytes + 9) = k + 1 :=
      Nat.exists_eq_succ_of_ne_zero (by omega)
    rw [hk, List.getElem?_cons_succ, List.getElem?_replicate] at hbyte
    split_ifs at hbyte
    · exact hone hbyte.symm
    · exact hone hbyte.symm

/-- The sink processes every message exactly once, whatever was written, exactly
when the packets it does not drop start where the messages start. -/
theorem received_once_iff (payloadBytes n : ℕ) (lens : List ℕ)
    (hsum : lens.sum = n * max headerSize payloadBytes) :
    (∀ ms pkts, ms.length = n → pkts.flatten = stream payloadBytes ms →
        pkts.map List.length = lens → received pkts = ms) ↔
      headerOffsets 0 lens =
        (List.range n).map (· * max headerSize payloadBytes) := by
  have hread : ∀ ms pkts, pkts.flatten = stream payloadBytes ms →
      pkts.map List.length = lens → received pkts = (headerOffsets 0 lens).map
        fun o => .copyFrom ((stream payloadBytes ms).drop o) := by
    intro ms pkts hflat hlens
    have := received_eq [] pkts
    rwa [List.nil_append, hflat, hlens] at this
  constructor
  · intro hall
    -- any stream of `n` messages can be cut this way
    have hcut : ∀ ms, ms.length = n → (headerOffsets 0 lens).map
        (fun o => CtrlHeader.copyFrom ((stream payloadBytes ms).drop o)) = ms := by
      intro ms hms
      have hlen : (stream payloadBytes ms).length = lens.sum := by
        rw [length_stream, hms, hsum]
      have hflat := List.flatten_splitLengths (stream payloadBytes ms) lens hlen.le
      have hlens := List.map_splitLengths_length (stream payloadBytes ms) lens hlen.ge
      rw [← hread ms _ hflat hlens]
      exact hall ms _ hms hflat hlens
    have hcount : (headerOffsets 0 lens).length = n := by
      have := congrArg List.length (hcut (List.replicate n CtrlHeader.zero) List.length_replicate)
      rwa [List.length_map, List.length_replicate] at this
    refine List.ext_getElem ?_ fun i hi hi' => ?_
    · rw [hcount, List.length_map, List.length_range]
    · have hin : i < n := hcount ▸ hi
      have hms : (List.replicate i CtrlHeader.zero ++
          CtrlHeader.marked :: List.replicate (n - (i + 1)) CtrlHeader.zero).length = n := by
        rw [List.length_append, List.length_cons, List.length_replicate,
          List.length_replicate]
        omega
      have hat := congrArg (·[i]?) (hcut _ hms)
      rw [List.getElem?_map, List.getElem?_eq_getElem hi,
        List.getElem?_append_right (by rw [List.length_replicate]),
        List.length_replicate, Nat.sub_self] at hat
      rw [offset_of_marked (Option.some.inj hat), List.getElem_map, List.getElem_range]
  · intro hoffs ms pkts hms hflat hlens
    rw [hread ms pkts hflat hlens, hoffs, List.map_map]
    refine List.ext_getElem ?_ fun i hi hi' => ?_
    · rw [List.length_map, List.length_range, hms]
    · rw [List.getElem_map, List.getElem_range]
      exact copyFrom_stream payloadBytes hi'

/-- Two messages of 16 bytes, each in its own packet. -/
theorem received_once_two :
    received [message 16 ⟨1#64, 0#8, 1#8⟩, message 16 ⟨2#64, 1#8, 0#8⟩] =
      [⟨1#64, 0#8, 1#8⟩, ⟨2#64, 1#8, 0#8⟩] :=
  (received_once_iff 16 2 [16, 16] rfl).mpr rfl _ _ rfl rfl rfl

/-- The same two messages in one packet: the second is never processed. -/
theorem coalesced_message_lost :
    ¬ ∀ (ms : List CtrlHeader) (pkts : List (List Byte)),
      pkts.flatten = stream 16 ms → received pkts = ms := by
  intro hall
  have hbad := hall [⟨1#64, 0#8, 1#8⟩, ⟨2#64, 1#8, 0#8⟩]
    [stream 16 [⟨1#64, 0#8, 1#8⟩, ⟨2#64, 1#8, 0#8⟩]] (List.append_nil _)
  have hcount := congrArg List.length hbad
  exact absurd hcount (by decide)

end ControlStream

end Q2NS
