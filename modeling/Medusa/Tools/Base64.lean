import Medusa.Kernel.Buffer
import Medusa.Machine.Loop

/-!
# Base64

`base64_encode` takes three octets a round, with zero past the end of the data, and
writes four characters; a second loop overwrites the last ones with `=`.
`base64_decode` counts the `=` at the end to find how long its result is, and takes
four characters a round.

On lists the two loops are recursions over groups.  Decoding the groups of encoded
data gives the data and the zeros that completed the last group, and the length is
what cuts these off.
-/

namespace Medusa
namespace Tools

open Machine Kernel

/-! ## The code -/

def charByte (c : Char) : BitVec 8 := BitVec.ofNat 8 c.toNat

def encodingTable : List (BitVec 8) :=
  ['A', 'B', 'C', 'D', 'E', 'F', 'G', 'H', 'I', 'J', 'K', 'L', 'M',
   'N', 'O', 'P', 'Q', 'R', 'S', 'T', 'U', 'V', 'W', 'X', 'Y', 'Z',
   'a', 'b', 'c', 'd', 'e', 'f', 'g', 'h', 'i', 'j', 'k', 'l', 'm',
   'n', 'o', 'p', 'q', 'r', 's', 't', 'u', 'v', 'w', 'x', 'y', 'z',
   '0', '1', '2', '3', '4', '5', '6', '7', '8', '9', '+', '/'].map charByte

def decodingTable : List Nat :=
  [0x00, 0x00, 0x00, 0x00, 0x00, 0x00, 0x00, 0x00, 0x00, 0x00, 0x00, 0x00,
   0x00, 0x00, 0x00, 0x00, 0x00, 0x00, 0x00, 0x00, 0x00, 0x00, 0x00, 0x00,
   0x00, 0x00, 0x00, 0x00, 0x00, 0x00, 0x00, 0x00, 0x00, 0x00, 0x00, 0x00,
   0x00, 0x00, 0x00, 0x00, 0x00, 0x00, 0x00, 0x3e, 0x00, 0x00, 0x00, 0x3f,
   0x34, 0x35, 0x36, 0x37, 0x38, 0x39, 0x3a, 0x3b, 0x3c, 0x3d, 0x00, 0x00,
   0x00, 0x00, 0x00, 0x00, 0x00, 0x00, 0x01, 0x02, 0x03, 0x04, 0x05, 0x06,
   0x07, 0x08, 0x09, 0x0a, 0x0b, 0x0c, 0x0d, 0x0e, 0x0f, 0x10, 0x11, 0x12,
   0x13, 0x14, 0x15, 0x16, 0x17, 0x18, 0x19, 0x00, 0x00, 0x00, 0x00, 0x00,
   0x00, 0x1a, 0x1b, 0x1c, 0x1d, 0x1e, 0x1f, 0x20, 0x21, 0x22, 0x23, 0x24,
   0x25, 0x26, 0x27, 0x28, 0x29, 0x2a, 0x2b, 0x2c, 0x2d, 0x2e, 0x2f, 0x30,
   0x31, 0x32, 0x33, 0x00, 0x00, 0x00, 0x00, 0x00, 0x00, 0x00, 0x00, 0x00,
   0x00, 0x00, 0x00, 0x00, 0x00, 0x00, 0x00, 0x00, 0x00, 0x00, 0x00, 0x00,
   0x00, 0x00, 0x00, 0x00, 0x00, 0x00, 0x00, 0x00, 0x00, 0x00, 0x00, 0x00,
   0x00, 0x00, 0x00, 0x00, 0x00, 0x00, 0x00, 0x00, 0x00, 0x00, 0x00, 0x00,
   0x00, 0x00, 0x00, 0x00, 0x00, 0x00, 0x00, 0x00, 0x00, 0x00, 0x00, 0x00,
   0x00, 0x00, 0x00, 0x00, 0x00, 0x00, 0x00, 0x00, 0x00, 0x00, 0x00, 0x00,
   0x00, 0x00, 0x00, 0x00, 0x00, 0x00, 0x00, 0x00, 0x00, 0x00, 0x00, 0x00,
   0x00, 0x00, 0x00, 0x00, 0x00, 0x00, 0x00, 0x00, 0x00, 0x00, 0x00, 0x00,
   0x00, 0x00, 0x00, 0x00, 0x00, 0x00, 0x00, 0x00, 0x00, 0x00, 0x00, 0x00,
   0x00, 0x00, 0x00, 0x00, 0x00, 0x00, 0x00, 0x00, 0x00, 0x00, 0x00, 0x00,
   0x00, 0x00, 0x00, 0x00, 0x00, 0x00, 0x00, 0x00, 0x00, 0x00, 0x00, 0x00,
   0x00, 0x00, 0x00, 0x00]

/-- `i < input_length ? (unsigned char)data[i++] : 0`, with the new `i`. -/
def nextOctet (data : List (BitVec 8)) (inputLength i : Nat) : Except Stop (Nat × Nat) :=
  if i < inputLength then do
    let octet ← fetch data i
    return (octet.toNat, i + 1)
  else .ok (0, i)

/-- `encoding_table[(triple >> k * 6) & 0x3F]`. -/
def sextetChar (triple k : Nat) : Except Stop (BitVec 8) :=
  fetch encodingTable ((triple >>> (k * 6)) &&& 0x3F)

/-- One round of the encoding loop. -/
def encodeRound (data : List (BitVec 8)) (inputLength i j : Nat) (encoded : List (BitVec 8)) :
    Except Stop (Nat × List (BitVec 8)) := do
  let (octetA, i) ← nextOctet data inputLength i
  let (octetB, i) ← nextOctet data inputLength i
  let (octetC, i) ← nextOctet data inputLength i
  let triple := (octetA <<< 0x10) + (octetB <<< 0x08) + octetC
  let encoded ← store encoded j (← sextetChar triple 3)
  let encoded ← store encoded (j + 1) (← sextetChar triple 2)
  let encoded ← store encoded (j + 2) (← sextetChar triple 1)
  let encoded ← store encoded (j + 3) (← sextetChar triple 0)
  return (i, encoded)

def encodeLoop (data : List (BitVec 8)) (inputLength : Nat) :
    Nat → Nat → Nat → List (BitVec 8) → Except Stop (List (BitVec 8))
  | 0, _, _, _ => .error .fuel
  | fuel + 1, i, j, encoded =>
    if i < inputLength then do
      let (i, encoded) ← encodeRound data inputLength i j encoded
      encodeLoop data inputLength fuel i (j + 4) encoded
    else .ok encoded

def modTable : List Nat := [0, 2, 1]

/-- The loop that writes the `=`. -/
def padLoop (outputLength count : Nat) (encoded : List (BitVec 8)) :
    Except Stop (List (BitVec 8)) :=
  (List.range count).foldlM (fun buf i => store buf (outputLength - 1 - i) (charByte '='))
    encoded

/-- `base64_encode`: the result, and the value of `*output_length`.  A round takes at
least one octet, so one round more than there are octets is enough. -/
def base64Encode (kmalloc : Nat → Option (List (BitVec 8))) (data : List (BitVec 8))
    (inputLength : Nat) : Except Stop (Option (List (BitVec 8)) × Nat) :=
  let outputLength := wrap (4 * (wrap (inputLength + 2) / 3))
  match kmalloc outputLength with
  | none => .ok (none, outputLength)
  | some encoded => do
    let encoded ← encodeLoop data inputLength (inputLength + 1) 0 0 encoded
    let count ← fetch modTable (inputLength % 3)
    let encoded ← padLoop outputLength count encoded
    return (some encoded, outputLength)

/-- `data[i] == '=' ? 0 & i++ : decoding_table[data[i++]]`.  A `char` is signed, so
one above 127 would index below the table. -/
def nextSextet (data : List (BitVec 8)) (i : Nat) : Except Stop Nat := do
  let c ← fetch data i
  if c = charByte '=' then return 0
  else if c.toInt < 0 then throw .fault
  else fetch decodingTable c.toNat

/-- `if (j < *output_length) decoded_data[j++] = byte`. -/
def putByte (outputLength j : Nat) (decoded : List (BitVec 8)) (byte : Nat) :
    Except Stop (Nat × List (BitVec 8)) :=
  if j < outputLength then do
    let decoded ← store decoded j (BitVec.ofNat 8 byte)
    return (j + 1, decoded)
  else .ok (j, decoded)

/-- One round of the decoding loop. -/
def decodeRound (data : List (BitVec 8)) (outputLength i j : Nat) (decoded : List (BitVec 8)) :
    Except Stop (Nat × List (BitVec 8)) := do
  let sextetA ← nextSextet data i
  let sextetB ← nextSextet data (i + 1)
  let sextetC ← nextSextet data (i + 2)
  let sextetD ← nextSextet data (i + 3)
  let triple := (sextetA <<< (3 * 6)) + (sextetB <<< (2 * 6)) + (sextetC <<< (1 * 6)) +
    (sextetD <<< (0 * 6))
  let (j, decoded) ← putByte outputLength j decoded ((triple >>> (2 * 8)) &&& 0xFF)
  let (j, decoded) ← putByte outputLength j decoded ((triple >>> (1 * 8)) &&& 0xFF)
  putByte outputLength j decoded ((triple >>> (0 * 8)) &&& 0xFF)

def decodeLoop (data : List (BitVec 8)) (inputLength outputLength : Nat) :
    Nat → Nat → Nat → List (BitVec 8) → Except Stop (List (BitVec 8))
  | 0, _, _, _ => .error .fuel
  | fuel + 1, i, j, decoded =>
    if i < inputLength then do
      let (j, decoded) ← decodeRound data outputLength i j decoded
      decodeLoop data inputLength outputLength fuel (i + 4) j decoded
    else .ok decoded

/-- `*output_length` of `base64_decode`. -/
def decodedLength (data : List (BitVec 8)) (inputLength : Nat) : Except Stop Nat := do
  let outputLength := inputLength / 4 * 3
  let last ← fetch data (wsub inputLength 1)
  let outputLength := if last = charByte '=' then wsub outputLength 1 else outputLength
  let secondLast ← fetch data (wsub inputLength 2)
  return if secondLast = charByte '=' then wsub outputLength 1 else outputLength

/-- `base64_decode`: the result, and what is stored in `*output_length` if anything
is. -/
def base64Decode (kmalloc : Nat → Option (List (BitVec 8))) (data : List (BitVec 8))
    (inputLength : Nat) : Except Stop (Option (List (BitVec 8)) × Option Nat) := do
  if inputLength % 4 ≠ 0 then return (none, none)
  let outputLength ← decodedLength data inputLength
  match kmalloc outputLength with
  | none => return (none, some outputLength)
  | some decoded =>
    let decoded ← decodeLoop data inputLength outputLength (inputLength + 1) 0 0 decoded
    return (some decoded, some outputLength)

/-! ## Tables and groups -/

/-- The character of a sextet. -/
def encodeChar (sextet : Nat) : BitVec 8 := encodingTable.getD sextet 0

/-- The sextet of a character. -/
def sextetValue (c : BitVec 8) : Nat :=
  if c = charByte '=' then 0 else decodingTable.getD c.toNat 0

/-- Neither table is read outside for this character. -/
def Readable (c : BitVec 8) : Prop := c.toNat < 128

theorem fetch_encodingTable {s : Nat} (hs : s < 64) :
    fetch encodingTable s = .ok (encodeChar s) := by
  have hall : ∀ s, s < 64 → fetch encodingTable s = .ok (encodeChar s) := by decide
  exact hall s hs

/-- **The decoding table inverts the encoding table.** -/
theorem sextetValue_encodeChar {s : Nat} (hs : s < 64) : sextetValue (encodeChar s) = s := by
  have hall : ∀ s, s < 64 → sextetValue (encodeChar s) = s := by decide
  exact hall s hs

theorem encodeChar_ne_pad {s : Nat} (hs : s < 64) : encodeChar s ≠ charByte '=' := by
  have hall : ∀ s, s < 64 → encodeChar s ≠ charByte '=' := by decide
  exact hall s hs

theorem readable_encodeChar {s : Nat} (hs : s < 64) : Readable (encodeChar s) := by
  have hall : ∀ s, s < 64 → (encodeChar s).toNat < 128 := by decide
  exact hall s hs

theorem readable_pad : Readable (charByte '=') := by
  unfold Readable
  decide

theorem sextet_eq (triple k : Nat) :
    (triple >>> (k * 6)) &&& 0x3F = triple / 2 ^ (k * 6) % 64 := by
  rw [Nat.shiftRight_eq_div_pow]
  exact Nat.and_two_pow_sub_one_eq_mod _ 6

theorem byte_eq (triple k : Nat) : (triple >>> (k * 8)) &&& 0xFF = triple / 2 ^ (k * 8) % 256 := by
  rw [Nat.shiftRight_eq_div_pow]
  exact Nat.and_two_pow_sub_one_eq_mod _ 8

/-- `triple` of the encoding loop. -/
def tripleOf (a b c : BitVec 8) : Nat := (a.toNat <<< 0x10) + (b.toNat <<< 0x08) + c.toNat

theorem tripleOf_eq (a b c : BitVec 8) :
    tripleOf a b c = a.toNat * 65536 + b.toNat * 256 + c.toNat := by
  simp [tripleOf, Nat.shiftLeft_eq]

/-- The character of sextet `k` of a group. -/
def groupChar (triple k : Nat) : BitVec 8 := encodeChar ((triple >>> (k * 6)) &&& 0x3F)

theorem sextet_lt (triple k : Nat) : (triple >>> (k * 6)) &&& 0x3F < 64 := by
  rw [sextet_eq]
  exact Nat.mod_lt _ (by decide)

theorem sextetChar_eq (triple k : Nat) : sextetChar triple k = .ok (groupChar triple k) :=
  fetch_encodingTable (sextet_lt triple k)

/-- The four characters of three octets. -/
def groupChars (a b c : BitVec 8) : List (BitVec 8) :=
  [groupChar (tripleOf a b c) 3, groupChar (tripleOf a b c) 2,
   groupChar (tripleOf a b c) 1, groupChar (tripleOf a b c) 0]

/-- What the encoding loop writes. -/
def encodeGroups : List (BitVec 8) → List (BitVec 8)
  | [] => []
  | [a] => groupChars a 0 0
  | [a, b] => groupChars a b 0
  | a :: b :: c :: rest => groupChars a b c ++ encodeGroups rest

theorem length_encodeGroups (d : List (BitVec 8)) :
    (encodeGroups d).length = 4 * ((d.length + 2) / 3) := by
  fun_induction encodeGroups d with
  | case1 => rfl
  | case2 a => simp [groupChars]
  | case3 a b => simp [groupChars]
  | case4 a b c rest ih =>
    simp only [List.length_append, ih, List.length_cons, groupChars, List.length_nil]
    omega

theorem four_of_length {l : List (BitVec 8)} (h : 4 ≤ l.length) :
    ∃ w x y z rest, l = w :: x :: y :: z :: rest := by
  match l, h with
  | w :: x :: y :: z :: rest, _ => exact ⟨w, x, y, z, rest, rfl⟩

/-! ## The encoding loop -/

theorem nextOctet_append (taken rest : List (BitVec 8)) (k : Nat) :
    nextOctet (taken ++ rest) (taken.length + rest.length) (taken.length + k) =
      match rest[k]? with
      | some octet => .ok (octet.toNat, taken.length + k + 1)
      | none => .ok (0, taken.length + k) := by
  unfold nextOctet
  rw [fetch_append_add]
  by_cases hk : k < rest.length
  · rw [if_pos (by omega), fetch_eq_ok (List.getElem?_eq_getElem hk), List.getElem?_eq_getElem hk]
    rfl
  · rw [if_neg (by omega), List.getElem?_eq_none (by omega)]

/-- The three octets of a round. -/
def octetAt (rest : List (BitVec 8)) (k : Nat) : BitVec 8 := (rest[k]?).getD 0

theorem encodeRound_spec (taken done junk : List (BitVec 8)) {rest : List (BitVec 8)}
    (hrest : rest ≠ []) (w x y z : BitVec 8) :
    encodeRound (taken ++ rest) (taken.length + rest.length) taken.length done.length
        (done ++ w :: x :: y :: z :: junk) =
      .ok (taken.length + min 3 rest.length,
        done ++ groupChars (octetAt rest 0) (octetAt rest 1) (octetAt rest 2) ++ junk) := by
  have hstep := nextOctet_append taken rest
  have hfirst := hstep 0
  have hsecond := hstep 1
  have hthird := hstep 2
  match rest, hrest with
  | [a], _ =>
    simp at hfirst hsecond
    simp [encodeRound, hfirst, hsecond, ok_bind, sextetChar_eq, store, groupChars, octetAt,
      tripleOf, pure, Except.pure]
  | [a, b], _ =>
    simp at hfirst hsecond hthird
    simp [encodeRound, hfirst, hsecond, hthird, ok_bind, sextetChar_eq, store, groupChars,
      octetAt, tripleOf, pure, Except.pure]
  | a :: b :: c :: rest, _ =>
    simp at hfirst hsecond hthird
    simp [encodeRound, hfirst, hsecond, hthird, ok_bind, sextetChar_eq, store, groupChars,
      octetAt, tripleOf, pure, Except.pure]

theorem encodeGroups_of_ne_nil {rest : List (BitVec 8)} (hrest : rest ≠ []) :
    encodeGroups rest = groupChars (octetAt rest 0) (octetAt rest 1) (octetAt rest 2) ++
      encodeGroups (rest.drop 3) := by
  match rest, hrest with
  | [a], _ => simp [encodeGroups, octetAt]
  | [a, b], _ => simp [encodeGroups, octetAt]
  | a :: b :: c :: rest, _ => simp [encodeGroups, octetAt]

theorem encodeLoop_spec {taken rest done junk : List (BitVec 8)} {fuel : Nat}
    (hjunk : junk.length = (encodeGroups rest).length) (hfuel : rest.length < fuel) :
    encodeLoop (taken ++ rest) (taken.length + rest.length) fuel taken.length done.length
      (done ++ junk) = .ok (done ++ encodeGroups rest) := by
  -- each round moves one group from `rest` to `taken` and its characters to `done`
  induction fuel generalizing taken rest done junk with
  | zero => omega
  | succ fuel ih =>
    rw [encodeLoop]
    by_cases hrest : rest = []
    · subst hrest
      have hempty : junk = [] := List.eq_nil_of_length_eq_zero hjunk
      simp [hempty, encodeGroups]
    · have hpos := List.length_pos_of_ne_nil hrest
      rw [encodeGroups_of_ne_nil hrest] at hjunk ⊢
      obtain ⟨w, x, y, z, junk, rfl⟩ := four_of_length (l := junk) (by simp [hjunk, groupChars])
      rw [if_pos (by omega), encodeRound_spec taken done junk hrest]
      have hgo := @ih (taken ++ rest.take 3) (rest.drop 3)
        (done ++ groupChars (octetAt rest 0) (octetAt rest 1) (octetAt rest 2)) junk
        (by simpa [groupChars] using hjunk) (by simp; omega)
      have hlen : (taken ++ rest.take 3).length = taken.length + min 3 rest.length := by simp
      have htotal : taken.length + min 3 rest.length + (rest.drop 3).length =
          taken.length + rest.length := by simp; omega
      have hdone : (done ++ groupChars (octetAt rest 0) (octetAt rest 1) (octetAt rest 2)).length =
          done.length + 4 := by simp [groupChars]
      rw [hlen, htotal, hdone, List.append_assoc taken, List.take_append_drop] at hgo
      rw [ok_bind, ← List.append_assoc done (groupChars _ _ _) (encodeGroups _)]
      exact hgo

/-! ## Padding -/

/-- The loop replaces the last characters. -/
theorem padLoop_spec {buf : List (BitVec 8)} {count : Nat} (hcount : count ≤ buf.length) :
    padLoop buf.length count buf =
      .ok (buf.take (buf.length - count) ++ List.replicate count (charByte '=')) := by
  induction count with
  | zero => simp [padLoop, pure, Except.pure]
  | succ count ih =>
    have hprev := ih (by omega)
    have hk : buf.length - (count + 1) < buf.length := by omega
    have htake : buf.take (buf.length - count) =
        buf.take (buf.length - (count + 1)) ++ [buf[buf.length - (count + 1)]] := by
      rw [List.take_append_getElem, show buf.length - (count + 1) + 1 = buf.length - count by omega]
    have hstore := store_append_cons (buf.take (buf.length - (count + 1)))
      (List.replicate count (charByte '=')) (charByte '=') buf[buf.length - (count + 1)]
    rw [List.length_take, Nat.min_eq_left hk.le] at hstore
    unfold padLoop at hprev ⊢
    rw [List.range_succ, List.foldlM_append, hprev, ok_bind, htake]
    simp only [List.foldlM_cons, List.foldlM_nil, List.append_assoc, List.singleton_append]
    rw [show buf.length - 1 - count = buf.length - (count + 1) by omega, hstore]
    rfl

/-- The number of `=` after data. -/
def padCount (d : List (BitVec 8)) : Nat := modTable.getD (d.length % 3) 0

theorem fetch_modTable (d : List (BitVec 8)) : fetch modTable (d.length % 3) = .ok (padCount d) := by
  have hall : ∀ r, r < 3 → fetch modTable r = .ok (modTable.getD r 0) := by decide
  exact hall _ (Nat.mod_lt _ (by decide))

/-- What `base64_encode` returns. -/
def base64Text : List (BitVec 8) → List (BitVec 8)
  | [] => []
  | [a] => (groupChars a 0 0).take 2 ++ [charByte '=', charByte '=']
  | [a, b] => (groupChars a b 0).take 3 ++ [charByte '=']
  | a :: b :: c :: rest => groupChars a b c ++ base64Text rest

theorem padCount_le (d : List (BitVec 8)) : padCount d ≤ (encodeGroups d).length := by
  have hall : ∀ r, r < 3 → modTable.getD r 0 = (3 - r) % 3 := by decide
  have hcount := hall (d.length % 3) (Nat.mod_lt _ (by decide))
  rw [length_encodeGroups]
  unfold padCount
  omega

theorem base64Text_eq (d : List (BitVec 8)) :
    base64Text d = (encodeGroups d).take ((encodeGroups d).length - padCount d) ++
      List.replicate (padCount d) (charByte '=') := by
  fun_induction base64Text d with
  | case1 => rfl
  | case2 a => simp [encodeGroups, groupChars, padCount, modTable, List.replicate]
  | case3 a b => simp [encodeGroups, groupChars, padCount, modTable]
  | case4 a b c rest ih =>
    have hmod : (rest.length + 1 + 1 + 1) % 3 = rest.length % 3 := by omega
    have hcount : padCount (a :: b :: c :: rest) = padCount rest := by
      simp [padCount, hmod]
    have hle := padCount_le rest
    rw [encodeGroups, hcount, List.length_append, Nat.add_sub_assoc hle, List.take_length_add_append,
      List.append_assoc, ih]

theorem length_base64Text (d : List (BitVec 8)) :
    (base64Text d).length = 4 * ((d.length + 2) / 3) := by
  have hle := padCount_le d
  rw [base64Text_eq, ← length_encodeGroups]
  simp
  omega

/-! ## The decoding loop -/

/-- `triple` of the decoding loop. -/
def sextetTriple (a b c d : BitVec 8) : Nat :=
  (sextetValue a <<< (3 * 6)) + (sextetValue b <<< (2 * 6)) + (sextetValue c <<< (1 * 6)) +
    (sextetValue d <<< (0 * 6))

/-- The three bytes of four characters. -/
def groupBytes (triple : Nat) : List (BitVec 8) :=
  [BitVec.ofNat 8 ((triple >>> (2 * 8)) &&& 0xFF), BitVec.ofNat 8 ((triple >>> (1 * 8)) &&& 0xFF),
   BitVec.ofNat 8 ((triple >>> (0 * 8)) &&& 0xFF)]

/-- What the decoding loop writes, as long as there is room. -/
def decodeGroups : List (BitVec 8) → List (BitVec 8)
  | a :: b :: c :: d :: rest => groupBytes (sextetTriple a b c d) ++ decodeGroups rest
  | _ => []

theorem nextSextet_eq {data : List (BitVec 8)} {i : Nat} {c : BitVec 8} (hfetch : fetch data i = .ok c)
    (hc : Readable c) : nextSextet data i = .ok (sextetValue c) := by
  unfold Readable at hc
  have hsigned : ¬ c.toInt < 0 := by
    rw [BitVec.toInt_eq_toNat_of_lt (by omega)]
    omega
  have htable : fetch decodingTable c.toNat = .ok (decodingTable.getD c.toNat 0) := by
    have hlen : decodingTable.length = 256 := by decide +kernel
    have hlt : c.toNat < decodingTable.length := by omega
    rw [fetch_eq_ok (List.getElem?_eq_getElem hlt), List.getD_eq_getElem _ _ hlt]
  unfold nextSextet sextetValue
  rw [hfetch, ok_bind]
  by_cases hpad : c = charByte '='
  · rw [if_pos hpad, if_pos hpad]
    rfl
  · rw [if_neg hpad, if_neg hpad, if_neg hsigned, htable]

/-- A buffer with `done` written and `junk` free, after `bytes`: those that fit are
written. -/
def filled (done junk bytes : List (BitVec 8)) : List (BitVec 8) :=
  done ++ bytes.take junk.length

theorem filled_append (done junk bytes more : List (BitVec 8)) :
    filled (filled done junk bytes) (junk.drop bytes.length) more =
      filled done junk (bytes ++ more) := by
  simp [filled, List.take_append]

/-- The buffer keeps its length. -/
theorem length_filled (done junk bytes : List (BitVec 8)) :
    (filled done junk bytes).length + (junk.drop bytes.length).length =
      done.length + junk.length := by
  simp only [filled, List.length_append, List.length_take, List.length_drop]
  omega

theorem putByte_spec {outputLength : Nat} {done junk : List (BitVec 8)}
    (hout : done.length + junk.length = outputLength) (byte : Nat) :
    putByte outputLength done.length (done ++ junk) byte =
      .ok ((filled done junk [BitVec.ofNat 8 byte]).length,
        filled done junk [BitVec.ofNat 8 byte] ++ junk.drop 1) := by
  unfold putByte filled
  cases junk with
  | nil => simp [← hout]
  | cons x junk =>
    rw [if_pos (by simp [← hout]), store_append_cons]
    simp [pure, Except.pure, bind, Except.bind]

/-- The three stores of a round: each leaves a buffer of the same length. -/
theorem putByte_three {outputLength : Nat} {done junk : List (BitVec 8)}
    (hout : done.length + junk.length = outputLength) (x y z : Nat) :
    (do
      let (j, decoded) ← putByte outputLength done.length (done ++ junk) x
      let (j, decoded) ← putByte outputLength j decoded y
      putByte outputLength j decoded z) =
    .ok ((filled done junk [BitVec.ofNat 8 x, BitVec.ofNat 8 y, BitVec.ofNat 8 z]).length,
      filled done junk [BitVec.ofNat 8 x, BitVec.ofNat 8 y, BitVec.ofNat 8 z] ++ junk.drop 3) := by
  have hfirst : (filled done junk [BitVec.ofNat 8 x]).length + (junk.drop 1).length = outputLength :=
    (length_filled done junk [BitVec.ofNat 8 x]).trans hout
  have hsecond : (filled done junk [BitVec.ofNat 8 x, BitVec.ofNat 8 y]).length +
      (junk.drop 2).length = outputLength :=
    (length_filled done junk [BitVec.ofNat 8 x, BitVec.ofNat 8 y]).trans hout
  have hxy : filled (filled done junk [BitVec.ofNat 8 x]) (junk.drop 1) [BitVec.ofNat 8 y] =
      filled done junk [BitVec.ofNat 8 x, BitVec.ofNat 8 y] :=
    filled_append done junk [BitVec.ofNat 8 x] _
  have hxyz : filled (filled done junk [BitVec.ofNat 8 x, BitVec.ofNat 8 y]) (junk.drop 2)
      [BitVec.ofNat 8 z] =
      filled done junk [BitVec.ofNat 8 x, BitVec.ofNat 8 y, BitVec.ofNat 8 z] :=
    filled_append done junk [BitVec.ofNat 8 x, BitVec.ofNat 8 y] _
  simp only [putByte_spec hout, ok_bind, putByte_spec hfirst, hxy, List.drop_drop, Nat.reduceAdd,
    putByte_spec hsecond, hxyz]

theorem decodeRound_spec {outputLength : Nat} {taken rest done junk : List (BitVec 8)}
    {a b c d : BitVec 8} (ha : Readable a) (hb : Readable b) (hc : Readable c) (hd : Readable d)
    (hout : done.length + junk.length = outputLength) :
    decodeRound (taken ++ a :: b :: c :: d :: rest) outputLength taken.length done.length
        (done ++ junk) =
      .ok ((filled done junk (groupBytes (sextetTriple a b c d))).length,
        filled done junk (groupBytes (sextetTriple a b c d)) ++ junk.drop 3) := by
  have hfetch := fetch_append_add taken (a :: b :: c :: d :: rest)
  have hA : nextSextet (taken ++ a :: b :: c :: d :: rest) taken.length = .ok (sextetValue a) :=
    nextSextet_eq (hfetch 0) ha
  have hB := nextSextet_eq (hfetch 1) hb
  have hC := nextSextet_eq (hfetch 2) hc
  have hD := nextSextet_eq (hfetch 3) hd
  unfold decodeRound
  simp only [hA, hB, hC, hD, ok_bind]
  exact putByte_three hout _ _ _

theorem decodeLoop_spec {outputLength : Nat} {taken rest done junk : List (BitVec 8)} {fuel : Nat}
    (hread : ∀ c ∈ rest, Readable c) (hfour : rest.length % 4 = 0) (hfuel : rest.length < fuel)
    (hout : done.length + junk.length = outputLength)
    (hroom : junk.length ≤ (decodeGroups rest).length) :
    decodeLoop (taken ++ rest) (taken.length + rest.length) outputLength fuel taken.length
      done.length (done ++ junk) = .ok (done ++ (decodeGroups rest).take junk.length) := by
  induction fuel generalizing taken rest done junk with
  | zero => omega
  | succ fuel ih =>
    rw [decodeLoop]
    match rest, hread, hfour, hfuel, hroom with
    | [], _, _, _, hroom =>
      have hempty : junk = [] := List.eq_nil_of_length_eq_zero (by simpa [decodeGroups] using hroom)
      simp [hempty]
    | a :: b :: c :: d :: rest, hread, hfour, hfuel, hroom =>
      have hbytes : (groupBytes (sextetTriple a b c d)).length = 3 := rfl
      rw [if_pos (by simp), decodeRound_spec (hread a (by simp)) (hread b (by simp))
        (hread c (by simp)) (hread d (by simp)) hout]
      have hgo := @ih (taken ++ [a, b, c, d]) rest
        (filled done junk (groupBytes (sextetTriple a b c d))) (junk.drop 3)
        (fun x hx => hread x (by simp [hx])) (by simp at hfour; omega) (by simp at hfuel; omega)
        ((length_filled done junk (groupBytes (sextetTriple a b c d))).trans hout)
        (by simp [decodeGroups, hbytes] at hroom ⊢; omega)
      have hbuf : filled done junk (groupBytes (sextetTriple a b c d)) ++
          (decodeGroups rest).take (junk.drop 3).length =
          done ++ (decodeGroups (a :: b :: c :: d :: rest)).take junk.length :=
        filled_append done junk (groupBytes (sextetTriple a b c d)) (decodeGroups rest)
      have htotal : (taken ++ [a, b, c, d]).length + rest.length =
          taken.length + (a :: b :: c :: d :: rest).length := by simp; omega
      rw [hbuf, htotal, List.append_assoc taken] at hgo
      simpa [ok_bind] using hgo

/-! ## The round trip -/

/-- Four characters that stand for the sextets of three octets give these back. -/
theorem groupBytes_tripleOf (a b c : BitVec 8) : groupBytes (tripleOf a b c) = [a, b, c] := by
  have ha := a.isLt
  have hb := b.isLt
  have hc := c.isLt
  have hA : (tripleOf a b c >>> (2 * 8)) &&& 0xFF = a.toNat := by
    rw [byte_eq, tripleOf_eq]
    omega
  have hB : (tripleOf a b c >>> (1 * 8)) &&& 0xFF = b.toNat := by
    rw [byte_eq, tripleOf_eq]
    omega
  have hC : (tripleOf a b c >>> (0 * 8)) &&& 0xFF = c.toNat := by
    rw [byte_eq, tripleOf_eq]
    omega
  rw [groupBytes, hA, hB, hC]
  simp

theorem sextetValue_groupChar (triple k : Nat) :
    sextetValue (groupChar triple k) = triple / 2 ^ (k * 6) % 64 := by
  unfold groupChar
  rw [sextetValue_encodeChar (sextet_lt triple k), sextet_eq]

theorem sextetValue_pad : sextetValue (charByte '=') = 0 := by decide

/-- Characters that stand for the sextets of `triple` give `triple`. -/
theorem sextetTriple_eq {triple : Nat} {a b c d : BitVec 8} (ht : triple < 2 ^ 24)
    (ha : sextetValue a = triple / 2 ^ (3 * 6) % 64) (hb : sextetValue b = triple / 2 ^ (2 * 6) % 64)
    (hc : sextetValue c = triple / 2 ^ (1 * 6) % 64) (hd : sextetValue d = triple / 2 ^ (0 * 6) % 64) :
    sextetTriple a b c d = triple := by
  unfold sextetTriple
  rw [ha, hb, hc, hd]
  simp only [Nat.shiftLeft_eq, Nat.reduceMul, Nat.reducePow]
  omega

theorem tripleOf_lt (a b c : BitVec 8) : tripleOf a b c < 2 ^ 24 := by
  have ha := a.isLt
  have hb := b.isLt
  have hc := c.isLt
  rw [tripleOf_eq]
  omega

theorem decodeGroups_cons {x y z w : BitVec 8} {a b c : BitVec 8} (rest : List (BitVec 8))
    (h : sextetTriple x y z w = tripleOf a b c) :
    decodeGroups (x :: y :: z :: w :: rest) = a :: b :: c :: decodeGroups rest := by
  rw [decodeGroups, h, groupBytes_tripleOf]
  rfl

/-- Decoding gives the data back, with the zeros that completed its last group. -/
theorem decodeGroups_base64Text (d : List (BitVec 8)) :
    decodeGroups (base64Text d) = d ++ List.replicate (padCount d) 0 := by
  fun_induction base64Text d with
  | case1 => rfl
  | case2 a =>
    have hzero : tripleOf a 0 0 % 4096 = 0 := by rw [tripleOf_eq]; simp; omega
    refine decodeGroups_cons [] (sextetTriple_eq (tripleOf_lt a 0 0) (sextetValue_groupChar _ 3)
      (sextetValue_groupChar _ 2) ?_ ?_)
    · rw [sextetValue_pad]
      omega
    · rw [sextetValue_pad]
      omega
  | case3 a b =>
    have hzero : tripleOf a b 0 % 64 = 0 := by rw [tripleOf_eq]; simp; omega
    refine decodeGroups_cons [] (sextetTriple_eq (tripleOf_lt a b 0) (sextetValue_groupChar _ 3)
      (sextetValue_groupChar _ 2) (sextetValue_groupChar _ 1) ?_)
    rw [sextetValue_pad]
    omega
  | case4 a b c rest ih =>
    have hmod : (rest.length + 1 + 1 + 1) % 3 = rest.length % 3 := by omega
    have hgroup := decodeGroups_cons (base64Text rest) (sextetTriple_eq (tripleOf_lt a b c)
      (sextetValue_groupChar _ 3) (sextetValue_groupChar _ 2) (sextetValue_groupChar _ 1)
      (sextetValue_groupChar _ 0))
    have hcount : padCount (a :: b :: c :: rest) = padCount rest := by simp [padCount, hmod]
    rw [hcount]
    simpa [groupChars, ih] using hgroup

theorem readable_groupChar (triple k : Nat) : Readable (groupChar triple k) :=
  readable_encodeChar (sextet_lt triple k)

theorem readable_base64Text (d : List (BitVec 8)) : ∀ c ∈ base64Text d, Readable c := by
  fun_induction base64Text d with
  | case1 => simp
  | case2 a => simp [groupChars, readable_groupChar, readable_pad]
  | case3 a b => simp [groupChars, readable_groupChar, readable_pad]
  | case4 a b c rest ih =>
    simp only [groupChars, List.cons_append, List.nil_append, List.forall_mem_cons]
    exact ⟨readable_groupChar _ 3, readable_groupChar _ 2, readable_groupChar _ 1,
      readable_groupChar _ 0, ih⟩

theorem groupChar_ne_pad (triple k : Nat) : groupChar triple k ≠ charByte '=' :=
  encodeChar_ne_pad (sextet_lt triple k)

/-- The last two characters say how long the data was modulo three. -/
theorem base64Text_tail {d : List (BitVec 8)} (hd : d ≠ []) :
    ∃ front x y, base64Text d = front ++ [x, y] ∧ (y = charByte '=' ↔ d.length % 3 ≠ 0) ∧
      (x = charByte '=' ↔ d.length % 3 = 1) := by
  fun_induction base64Text d with
  | case1 => exact absurd rfl hd
  | case2 a =>
    exact ⟨(groupChars a 0 0).take 2, _, _, rfl, by simp, by simp⟩
  | case3 a b =>
    exact ⟨(groupChars a b 0).take 2, _, _, rfl, by simp, by simp [groupChar_ne_pad]⟩
  | case4 a b c rest ih =>
    by_cases hrest : rest = []
    · subst hrest
      exact ⟨(groupChars a b c).take 2, _, _, rfl, by simp [groupChar_ne_pad],
        by simp [groupChar_ne_pad]⟩
    · obtain ⟨front, x, y, htext, hy, hx⟩ := ih hrest
      have hmod : (rest.length + 1 + 1 + 1) % 3 = rest.length % 3 := by omega
      refine ⟨groupChars a b c ++ front, x, y, ?_, ?_, ?_⟩
      · rw [htext, List.append_assoc]
      · simpa [hmod] using hy
      · simpa [hmod] using hx

theorem decodedLength_base64Text {d : List (BitVec 8)} (hd : d ≠ []) (hlen : d.length < 2 ^ 30) :
    decodedLength (base64Text d) (base64Text d).length = .ok d.length := by
  have hpos := List.length_pos_of_ne_nil hd
  have htotal := length_base64Text d
  obtain ⟨front, x, y, htext, hy, hx⟩ := base64Text_tail hd
  have hfront : (base64Text d).length = front.length + 2 := by simp [htext]
  have hlast : fetch (base64Text d) (wsub (base64Text d).length 1) = .ok y := by
    rw [wsub_of_le (by omega) (by omega), htext, show (front ++ [x, y]).length - 1 =
      front.length + 1 by simp, fetch_append_add]
    rfl
  have hsecond : fetch (base64Text d) (wsub (base64Text d).length 2) = .ok x := by
    rw [wsub_of_le (by omega) (by omega), htext, show (front ++ [x, y]).length - 2 =
      front.length by simp, fetch_append_cons]
  have hround : (base64Text d).length / 4 * 3 = (d.length + 2) / 3 * 3 := by omega
  unfold decodedLength
  rw [hlast, hsecond, hround]
  simp only [ok_bind, pure, Except.pure]
  rcases (by omega : d.length % 3 = 0 ∨ d.length % 3 = 1 ∨ d.length % 3 = 2) with h | h | h
  · have hlong : ¬ y = charByte '=' := by rw [hy]; omega
    have hlonger : ¬ x = charByte '=' := by rw [hx]; omega
    rw [if_neg hlonger, if_neg hlong, show (d.length + 2) / 3 * 3 = d.length by omega]
  · have hshort : y = charByte '=' := hy.mpr (by omega)
    rw [if_pos (hx.mpr h), if_pos hshort, wsub_of_le (a := (d.length + 2) / 3 * 3) (by omega)
      (by omega), wsub_of_le (by omega) (by omega),
      show (d.length + 2) / 3 * 3 - 1 - 1 = d.length by omega]
  · have hshort : y = charByte '=' := hy.mpr (by omega)
    have hlonger : ¬ x = charByte '=' := by rw [hx]; omega
    rw [if_neg hlonger, if_pos hshort, wsub_of_le (by omega) (by omega),
      show (d.length + 2) / 3 * 3 - 1 = d.length by omega]

theorem base64Encode_spec {kmalloc : Nat → Option (List (BitVec 8))} {d buf : List (BitVec 8)}
    (hlen : d.length < 2 ^ 30) (hbuf : kmalloc (4 * ((d.length + 2) / 3)) = some buf)
    (hroom : buf.length = 4 * ((d.length + 2) / 3)) :
    base64Encode kmalloc d d.length = .ok (some (base64Text d), 4 * ((d.length + 2) / 3)) := by
  have hout : wrap (4 * (wrap (d.length + 2) / 3)) = 4 * ((d.length + 2) / 3) := by
    rw [wrap_of_lt (n := d.length + 2) (by omega), wrap_of_lt (by omega)]
  have hgroups := length_encodeGroups d
  have hloop : encodeLoop d d.length (d.length + 1) 0 0 buf = .ok (encodeGroups d) := by
    have h := @encodeLoop_spec [] d [] buf (d.length + 1) (by omega) (by omega)
    simpa using h
  have hpad := padLoop_spec (padCount_le d)
  rw [← base64Text_eq, hgroups] at hpad
  unfold base64Encode
  simp only [hout, hbuf, hloop, fetch_modTable, hpad, ok_bind]
  rfl

theorem base64Decode_spec {kmalloc : Nat → Option (List (BitVec 8))} {d buf : List (BitVec 8)}
    (hd : d ≠ []) (hlen : d.length < 2 ^ 30) (hbuf : kmalloc d.length = some buf)
    (hroom : buf.length = d.length) :
    base64Decode kmalloc (base64Text d) (base64Text d).length = .ok (some d, some d.length) := by
  have htext := length_base64Text d
  have hbytes := decodeGroups_base64Text d
  have hloop : decodeLoop (base64Text d) (base64Text d).length d.length
      ((base64Text d).length + 1) 0 0 buf = .ok d := by
    have h := @decodeLoop_spec d.length [] (base64Text d) [] buf ((base64Text d).length + 1)
      (readable_base64Text d) (by omega) (by omega) (by simpa using hroom)
      (by rw [hbytes]; simp [hroom])
    simpa [hbytes, hroom] using h
  unfold base64Decode
  rw [if_neg (by omega), decodedLength_base64Text hd hlen]
  simp only [ok_bind, hbuf, hloop]
  rfl

/-- **Round trip.**  For data below 1 GiB, the text has four characters for every
three octets begun, and decoding it gives the data back, with its length. -/
theorem base64_roundTrip {kmalloc : Nat → Option (List (BitVec 8))} {d : List (BitVec 8)}
    (hd : d ≠ []) (hlen : d.length < 2 ^ 30)
    (hkmalloc : ∀ n, ∃ buf, kmalloc n = some buf ∧ buf.length = n) :
    ∃ text, base64Encode kmalloc d d.length = .ok (some text, text.length) ∧
      text.length = 4 * ((d.length + 2) / 3) ∧
      base64Decode kmalloc text text.length = .ok (some d, some d.length) := by
  obtain ⟨encoded, hencoded, hroom⟩ := hkmalloc (4 * ((d.length + 2) / 3))
  obtain ⟨decoded, hdecoded, hroom'⟩ := hkmalloc d.length
  refine ⟨base64Text d, ?_, length_base64Text d, base64Decode_spec hd hlen hdecoded hroom'⟩
  rw [length_base64Text]
  exact base64Encode_spec hlen hencoded hroom

theorem base64_roundTrip_fourOctets :
    base64Encode (fun n => some (List.replicate n 0)) [0x4D, 0x65, 0x64, 0xFF] 4 =
        .ok (some (['T', 'W', 'V', 'k', '/', 'w', '=', '='].map charByte), 8) ∧
      ∃ text, base64Encode (fun n => some (List.replicate n 0)) [0x4D, 0x65, 0x64, 0xFF] 4 =
          .ok (some text, text.length) ∧ text.length = 8 ∧
        base64Decode (fun n => some (List.replicate n 0)) text text.length =
          .ok (some [0x4D, 0x65, 0x64, 0xFF], some 4) := by
  refine ⟨by decide, ?_⟩
  exact base64_roundTrip (by decide) (by decide) (fun n => ⟨List.replicate n 0, rfl, by simp⟩)

end Tools
end Medusa
