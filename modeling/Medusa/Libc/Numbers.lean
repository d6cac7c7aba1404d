import Medusa.Libc.CString
import Medusa.Machine.Numeral

/-!
# The texts of numbers

What `int_to_ascii_base` and `hex_to_ascii` leave in a buffer of any size: a text
that depends on the number alone, if the buffer has room for it and its terminator,
and a write behind the buffer if not.

The digits of `int_to_ascii_base` are decimal in every base, and the least integer,
which is its own negation, gives the character eight below `0`.  Except in the last
place, `hex_to_ascii` writes a colon for ten.
-/

namespace Medusa
namespace Libc

open Machine Kernel

/-! ## Writing at a border -/

section Border

variable {α : Type} {done rest : List α}

/-- What follows a step that returns under a condition. -/
theorem ite_ok_bind {β : Type} {c : Prop} [Decidable c] (a : α) (f : α → Except Stop β) :
    (if c then Except.ok a else .error .fault) >>= f = if c then f a else .error .fault := by
  by_cases hc : c
  · rw [if_pos hc, if_pos hc, ok_bind]
  · rw [if_neg hc, if_neg hc]
    rfl

theorem store_border (done rest : List α) (x : α) :
    store (done ++ rest) done.length x =
      if rest = [] then .error .fault else .ok (done ++ [x] ++ rest.drop 1) := by
  cases rest with
  | nil => simp [store]
  | cons y rest => simp [store_append_cons]

/-- The outcome of writing `cs` from the end of `done` on, with the place behind. -/
def written (done rest cs : List α) : Except Stop (Nat × List α) :=
  if cs.length ≤ rest.length then
    .ok ((done ++ cs).length, done ++ cs ++ rest.drop cs.length)
  else .error .fault

theorem written_nil (done rest : List α) : written done rest [] = .ok (done.length, done ++ rest) := by
  simp [written]

theorem store_written (done rest : List α) (x : α) :
    (store (done ++ rest) done.length x >>= fun buf => .ok (done.length + 1, buf)) =
      written done rest [x] := by
  rw [store_border, written]
  cases rest with
  | nil => rfl
  | cons y rest => simp [ok_bind]

/-- One piece written behind another. -/
theorem written_bind {cs cs' : List α} {f : Nat × List α → Except Stop (Nat × List α)}
    (hf : cs.length ≤ rest.length →
      f ((done ++ cs).length, done ++ cs ++ rest.drop cs.length) =
        written (done ++ cs) (rest.drop cs.length) cs') :
    written done rest cs >>= f = written done rest (cs ++ cs') := by
  unfold written at hf ⊢
  by_cases hfits : cs.length ≤ rest.length
  · rw [if_pos hfits, ok_bind, hf hfits, List.length_drop, @List.length_append _ cs]
    by_cases hmore : cs'.length ≤ rest.length - cs.length
    · rw [if_pos hmore, if_pos (by omega), List.drop_drop, List.append_assoc done cs cs']
    · rw [if_neg hmore, if_neg (by omega)]
  · rw [if_neg hfits, if_neg (by rw [List.length_append]; omega)]
    rfl

end Border

/-! ## `reverse` -/

/-- What the buffer holds after `i` swaps: the characters outside the middle part are
in each other's place. -/
def Swapped (s buf : List (BitVec 8)) (i : Nat) (t : List (BitVec 8)) : Prop :=
  ∀ k, t[k]? = if k < s.length ∧ (k < i ∨ s.length ≤ k + i) then s[s.length - 1 - k]? else buf[k]?

theorem Swapped.length {s buf t : List (BitVec 8)} {i : Nat} (h : Swapped s buf i t)
    (hs : s.length ≤ buf.length) : t.length = buf.length := by
  have hout : t[buf.length]? = none := by
    rw [h, if_neg (by omega), List.getElem?_eq_none (Nat.le_refl _)]
  have hin : ∀ k, k < buf.length → k < t.length := by
    intro k hk
    by_contra hge
    have hnone := h k
    rw [List.getElem?_eq_none (by omega)] at hnone
    split at hnone
    · rw [List.getElem?_eq_getElem (by omega)] at hnone
      cases hnone
    · rw [List.getElem?_eq_getElem hk] at hnone
      cases hnone
  have hle := List.getElem?_eq_none_iff.mp hout
  rcases Nat.eq_zero_or_pos buf.length with hzero | hpos
  · omega
  · have hlast := hin (buf.length - 1) (by omega)
    omega

theorem swapRound_swapped {s rest t : List (BitVec 8)} {i : Nat} (hi : i < s.length / 2)
    (h : Swapped s (s ++ rest) i t) :
    ∃ t', swapRound s.length t i = .ok t' ∧ Swapped s (s ++ rest) (i + 1) t' := by
  have hlen := h.length (by simp)
  rw [List.length_append] at hlen
  have hfirst : t[i]? = some s[i] := by
    rw [h, if_neg (by omega), List.getElem?_append_left (by omega), List.getElem?_eq_getElem]
  have hother : t[s.length - i - 1]? = some s[s.length - i - 1] := by
    rw [h, if_neg (by omega), List.getElem?_append_left (by omega), List.getElem?_eq_getElem]
  refine ⟨(t.set i s[s.length - i - 1]).set (s.length - i - 1) s[i], ?_, fun k => ?_⟩
  · rw [swapRound, fetch_eq_ok hfirst, ok_bind, fetch_eq_ok hother, ok_bind,
      store_eq_ok (by omega), ok_bind, store_eq_ok (by rw [List.length_set]; omega)]
  · rw [List.getElem?_set, List.length_set, List.getElem?_set, h k]
    by_cases hlast : s.length - i - 1 = k
    · rw [if_pos hlast, if_pos (by omega), if_pos (by omega),
        show s.length - 1 - k = i by omega, List.getElem?_eq_getElem]
    · rw [if_neg hlast]
      by_cases hk : i = k
      · rw [if_pos hk, if_pos (by omega), if_pos (by omega),
          show s.length - 1 - k = s.length - i - 1 by omega, List.getElem?_eq_getElem]
      · rw [if_neg hk]
        by_cases hin : k < s.length ∧ (k < i ∨ s.length ≤ k + i)
        · rw [if_pos hin, if_pos (by omega)]
        · rw [if_neg hin, if_neg (by omega)]

/-- `reverse` reverses the string and leaves what is behind it. -/
theorem reverse_eq {s : List (BitVec 8)} (rest : List (BitVec 8)) (hs : 0#8 ∉ s) :
    reverse (s ++ 0#8 :: rest) = .ok (s.reverse ++ 0#8 :: rest) := by
  have hloop := foldlM_range_induction (n := s.length / 2) (s := s ++ 0#8 :: rest)
    (f := swapRound s.length) (Swapped s (s ++ 0#8 :: rest)) (fun _ => False)
    (fun k => by rw [if_neg (by omega)])
    (by
      intro i t hi ht
      obtain ⟨t', hround, ht'⟩ := swapRound_swapped hi ht
      rw [hround]
      exact ht')
  rw [reverse, strlen_append_zero rest hs, ok_bind]
  cases hrun : (List.range (s.length / 2)).foldlM (swapRound s.length) (s ++ 0#8 :: rest) with
  | error e =>
    rw [hrun] at hloop
    exact hloop.elim
  | ok t =>
    rw [hrun] at hloop
    have hall : Swapped s (s ++ 0#8 :: rest) (s.length / 2) t := hloop
    congr 1
    refine List.ext_getElem? fun k => ?_
    rw [hall k]
    by_cases hk : k < s.length
    · have hrev : (s.reverse ++ 0#8 :: rest)[k]? = s[s.length - 1 - k]? := by
        rw [List.getElem?_append_left (by simpa using hk), List.getElem?_reverse hk]
      rw [hrev]
      by_cases hmid : k < s.length / 2 ∨ s.length ≤ k + s.length / 2
      · rw [if_pos ⟨hk, hmid⟩]
      · rw [if_neg (fun h => hmid h.2), List.getElem?_append_left hk,
          show s.length - 1 - k = k by omega]
    · rw [if_neg (fun h => hk h.1), List.getElem?_append_right (by omega),
        List.getElem?_append_right (by simp; omega), List.length_reverse]

/-! ## `int_to_ascii_base` -/

/-- The character of a digit, in lower case. -/
def digitByte (d : Nat) : BitVec 8 := BitVec.ofNat 8 (if d < 10 then 0x30 + d else 0x57 + d)

theorem toNat_digitByte {d : Nat} (h : d < 36) :
    (digitByte d).toNat = if d < 10 then 0x30 + d else 0x57 + d := by
  unfold digitByte
  rw [BitVec.toNat_ofNat, Nat.mod_eq_of_lt]
  split
  · omega
  · omega

theorem digitByte_ne_zero {d : Nat} (h : d < 36) : digitByte d ≠ 0#8 := by
  intro he
  have hnat := congrArg BitVec.toNat he
  rw [toNat_digitByte h, BitVec.toNat_ofNat, Nat.zero_mod] at hnat
  split at hnat
  · omega
  · omega

/-- The decimal numeral of a number. -/
def decimalText (m : Nat) : List (BitVec 8) := (digitsOf 10 m).map digitByte

def signText (n : BitVec 32) : List (BitVec 8) := if n.toInt < 0 then [0x2D#8] else []

def baseText (base : Nat) : List (BitVec 8) := if base = 16 then [0x30#8, 0x78#8] else []

/-- The digits that the loop makes of a number.  The negative remainder of the least
integer is added to `0` like any other. -/
def magnitudeText (n : BitVec 32) : List (BitVec 8) :=
  if n = BitVec.intMin 32 then [0x28#8] else decimalText n.toInt.natAbs

/-- What `int_to_ascii_base` writes. -/
def intText (n : BitVec 32) (base : Nat) : List (BitVec 8) :=
  baseText base ++ signText n ++ magnitudeText n

theorem store_bind_written {α β : Type} (done rest : List α) (x : α)
    (f : Nat × List α → Except Stop β) :
    (store (done ++ rest) done.length x >>= fun buf => f (done.length + 1, buf)) =
      written done rest [x] >>= f := by
  rw [← store_written]
  cases store (done ++ rest) done.length x with
  | error e => rfl
  | ok buf => rfl

/-- A round that is the last. -/
theorem digitLoop_last {fuel : Nat} {n : Int} (hn : n.tdiv 10 ≤ 0) (done rest : List (BitVec 8)) :
    digitLoop (fuel + 1) n done.length (done ++ rest) =
      written done rest [BitVec.ofInt 8 (n.tmod 10 + 0x30)] := by
  have hlast : ¬ 0 < n.tdiv 10 := by omega
  rw [digitLoop, ← store_written]
  simp only [if_neg hlast]
  rfl

theorem digitLoop_eq {fuel n : Nat} (hn : n < 10 ^ fuel) (hfuel : 0 < fuel)
    (done rest : List (BitVec 8)) :
    digitLoop fuel n done.length (done ++ rest) =
      written done rest ((lowDigits 10 n).map digitByte) := by
  induction fuel generalizing n done rest with
  | zero => omega
  | succ fuel ih =>
    have hdigit : BitVec.ofInt 8 ((n : Int).tmod 10 + 0x30) = digitByte (n % 10) := by
      have hlt : n % 10 < 10 := Nat.mod_lt _ (by decide)
      rw [digitByte, if_pos hlt, show ((n : Int).tmod 10 + 0x30) = ((0x30 + n % 10 : Nat) : Int) by
        rw [Int.tmod_eq_emod_of_nonneg (by omega)]; omega, BitVec.ofInt_natCast]
    by_cases hten : n < 10
    · have hlast : (n : Int).tdiv 10 ≤ 0 := by
        rw [Int.tdiv_eq_ediv_of_nonneg (by omega)]
        omega
      rw [digitLoop_last hlast, hdigit, lowDigits_of_lt hten, Nat.mod_eq_of_lt hten]
      rfl
    · have hpos : 0 < fuel := by
        rcases Nat.eq_zero_or_pos fuel with hzero | hpos
        · rw [hzero] at hn
          omega
        · exact hpos
      have hmore : 0 < ((n / 10 : Nat) : Int) := by omega
      have hnext : (n : Int).tdiv 10 = ((n / 10 : Nat) : Int) := by
        rw [Int.tdiv_eq_ediv_of_nonneg (by omega)]
        omega
      have hsmall : n / 10 < 10 ^ fuel := by
        rw [Nat.pow_succ] at hn
        omega
      rw [lowDigits_of_le (by decide) (by omega), List.map_cons, ← List.singleton_append,
        ← hdigit]
      rw [← written_bind (f := fun r => digitLoop fuel ((n / 10 : Nat) : Int) r.1 r.2)
        (fun _ => ih hsmall hpos _ _), ← store_bind_written, digitLoop]
      simp only [hnext, if_pos hmore]

theorem toInt_neg_of_ne {n : BitVec 32} (h : n ≠ BitVec.intMin 32) : (-n).toInt = -n.toInt :=
  BitVec.toInt_neg_of_ne_intMin h

/-- The digits of a number and of its negation. -/
theorem digitLoop_magnitude (n : BitVec 32) (done rest : List (BitVec 8)) :
    digitLoop 10 (if decide (n.toInt < 0) = true then (-n).toInt else n.toInt) done.length
      (done ++ rest) = written done rest (magnitudeText n).reverse := by
  unfold magnitudeText
  by_cases hmin : n = BitVec.intMin 32
  · subst hmin
    rw [if_pos rfl, digitLoop_last (by decide)]
    rfl
  · have habs : (if decide (n.toInt < 0) = true then (-n).toInt else n.toInt) =
        (n.toInt.natAbs : Int) := by
      by_cases hneg : n.toInt < 0
      · rw [if_pos (decide_eq_true hneg), toInt_neg_of_ne hmin]
        omega
      · rw [if_neg (by simpa using hneg)]
        omega
    have hlt := BitVec.toInt_lt (x := n)
    have hle := BitVec.le_toInt (x := n)
    rw [if_neg hmin, habs, digitLoop_eq (by omega) (by decide), decimalText, digitsOf,
      List.map_reverse, List.reverse_reverse]

theorem putSign_eq (n : BitVec 32) (done rest : List (BitVec 8)) :
    putSign (decide (n.toInt < 0)) done.length (done ++ rest) = written done rest (signText n) := by
  unfold putSign signText
  by_cases hneg : n.toInt < 0
  · rw [if_pos (decide_eq_true hneg), if_pos hneg, ← store_written]
    rfl
  · rw [if_neg (by simpa using hneg), if_neg hneg, written_nil]

theorem putBase_eq (base : Nat) (done rest : List (BitVec 8)) :
    putBase base done.length (done ++ rest) = written done rest (baseText base).reverse := by
  unfold putBase baseText
  by_cases hbase : base = 16
  · rw [if_pos hbase, if_pos hbase]
    have hsecond : ∀ done' rest' : List (BitVec 8),
        (store (done' ++ rest') done'.length 0x30#8 >>= fun buf => .ok (done'.length + 1, buf)) =
          written done' rest' [0x30#8] := fun done' rest' => store_written _ _ _
    show _ = written done rest ([0x78#8] ++ [0x30#8])
    rw [← written_bind (f := fun r => store r.2 r.1 0x30#8 >>= fun buf => .ok (r.1 + 1, buf))
      (fun _ => hsecond _ _), ← store_bind_written]
    rfl
  · rw [if_neg hbase, if_neg hbase, List.reverse_nil, written_nil]

theorem nul_not_mem_decimalText (m : Nat) : 0#8 ∉ decimalText m := by
  intro hin
  obtain ⟨d, hd, hzero⟩ := List.mem_map.mp hin
  have hlt := lt_of_mem_digitsOf (by decide) hd
  exact digitByte_ne_zero (by omega) hzero

theorem nul_not_mem_intText (n : BitVec 32) (base : Nat) : 0#8 ∉ intText n base := by
  have hbase : 0#8 ∉ baseText base := by
    unfold baseText
    split
    · decide
    · decide
  have hsign : 0#8 ∉ signText n := by
    unfold signText
    split
    · decide
    · decide
  have hmagnitude : 0#8 ∉ magnitudeText n := by
    unfold magnitudeText
    split
    · decide
    · exact nul_not_mem_decimalText _
  simp only [intText, List.mem_append, not_or]
  exact ⟨⟨hbase, hsign⟩, hmagnitude⟩

/-- **`int_to_ascii_base`** writes its text and a terminator at the start of the
buffer, or past the end of the buffer. -/
theorem intToAsciiBase_eq (n : BitVec 32) (buf : List (BitVec 8)) (base : Nat) :
    intToAsciiBase n buf base =
      if (intText n base).length < buf.length then
        .ok (intText n base ++ 0#8 :: buf.drop ((intText n base).length + 1))
      else .error .fault := by
  have htext : (magnitudeText n).reverse ++ (signText n ++ (baseText base).reverse) =
      (intText n base).reverse := by
    have hsign : (signText n).reverse = signText n := by
      unfold signText
      split
      · rfl
      · rfl
    rw [intText, List.reverse_append, List.reverse_append, hsign]
  have hpieces : intToAsciiBase n buf base =
      written [] buf (intText n base).reverse >>= fun r => store r.2 r.1 0#8 >>= reverse := by
    rw [← htext, ← written_bind (f := fun r => putSign (decide (n.toInt < 0)) r.1 r.2 >>= fun r =>
      putBase base r.1 r.2) (fun _ => ?_), ← digitLoop_magnitude n [] buf, bind_assoc]
    · simp only [bind_assoc]
      rfl
    · rw [putSign_eq, written_bind fun _ => putBase_eq base _ _]
  have hlen : (intText n base).reverse.length = (intText n base).length := List.length_reverse
  rw [hpieces, written, hlen]
  by_cases hfits : (intText n base).length ≤ buf.length
  · rw [if_pos hfits, ok_bind, store_border]
    by_cases hlt : (intText n base).length < buf.length
    · have hne : buf.drop (intText n base).length ≠ [] := by
        intro hnil
        have hzero := congrArg List.length hnil
        rw [List.length_drop, List.length_nil] at hzero
        omega
      have hnul : 0#8 ∉ (intText n base).reverse := fun hin =>
        nul_not_mem_intText n base (List.mem_reverse.mp hin)
      rw [if_neg hne, if_pos hlt, ok_bind, List.nil_append, List.append_assoc,
        List.singleton_append, reverse_eq _ hnul, List.reverse_reverse, List.drop_drop]
    · have hnil : buf.drop (intText n base).length = [] := List.drop_eq_nil_of_le (by omega)
      rw [if_pos hnil, if_neg hlt]
      rfl
  · rw [if_neg hfits, if_neg (by omega)]
    rfl

/-! ## `append` -/

/-- The outcome of appending `cs`, none of them the terminator, to the string `s` with
`rest` behind its terminator. -/
def appended (s rest cs : List (BitVec 8)) : Except Stop (List (BitVec 8)) :=
  if cs.length ≤ rest.length then .ok (s ++ cs ++ 0#8 :: rest.drop cs.length) else .error .fault

theorem appended_nil (s rest : List (BitVec 8)) :
    appended s rest [] = .ok (s ++ 0#8 :: rest) := by
  simp [appended]

theorem append_eq {s : List (BitVec 8)} (hs : 0#8 ∉ s) (rest : List (BitVec 8)) (c : BitVec 8) :
    append (s ++ 0#8 :: rest) c = appended s rest [c] := by
  rw [append, strlen_append_zero rest hs, ok_bind, store_append_cons, ok_bind, appended]
  cases rest with
  | nil => simp [store]
  | cons d rest =>
    have hnext := store_append_cons (s ++ [c]) rest 0#8 d
    simpa using hnext

/-- One piece appended after another. -/
theorem appended_bind {s rest cs cs' : List (BitVec 8)}
    {f : List (BitVec 8) → Except Stop (List (BitVec 8))}
    (hf : f (s ++ cs ++ 0#8 :: rest.drop cs.length) =
      appended (s ++ cs) (rest.drop cs.length) cs') :
    appended s rest cs >>= f = appended s rest (cs ++ cs') := by
  unfold appended at hf ⊢
  rw [@List.length_append _ cs]
  by_cases hfits : cs.length ≤ rest.length
  · rw [if_pos hfits, ok_bind, hf, List.length_drop]
    by_cases hmore : cs'.length ≤ rest.length - cs.length
    · rw [if_pos hmore, if_pos (by omega), List.drop_drop, List.append_assoc s cs cs']
    · rw [if_neg hmore, if_neg (by omega)]
  · rw [if_neg hfits, if_neg (by omega)]
    rfl

/-- The characters that stay: a terminator is written over by the next one. -/
def kept (cs : List (BitVec 8)) : List (BitVec 8) := cs.filter fun c => decide (c ≠ 0#8)

theorem kept_append (cs cs' : List (BitVec 8)) : kept (cs ++ cs') = kept cs ++ kept cs' :=
  List.filter_append ..

theorem length_kept_le (cs : List (BitVec 8)) : (kept cs).length ≤ cs.length :=
  List.length_filter_le _ _

/-- Appending any character needs room for it and a terminator. -/
theorem append_holds {buf s : List (BitVec 8)} (h : Holds buf s) (c : BitVec 8) :
    (s.length + 1 < buf.length → ∃ buf', append buf c = .ok buf' ∧ Holds buf' (s ++ kept [c]) ∧
      buf'.length = buf.length) ∧
    (¬ s.length + 1 < buf.length → append buf c = .error .fault) := by
  obtain ⟨rest, rfl, hs⟩ := h
  rw [append_eq hs, appended]
  cases rest with
  | nil => exact ⟨fun hroom => by simp at hroom, fun _ => rfl⟩
  | cons d rest =>
    refine ⟨fun _ => ⟨_, if_pos (by simp), ?_, by simp⟩, fun hfull => by simp at hfull⟩
    by_cases hc : c = 0#8
    · subst hc
      exact ⟨0#8 :: rest, by simp [kept], by simpa [kept] using hs⟩
    · refine ⟨rest, by simp [kept, hc], ?_⟩
      simp only [kept, ne_eq, hc, not_false_eq_true, decide_true, List.filter_cons_of_pos,
        List.filter_nil, List.mem_append, List.mem_singleton, not_or]
      exact ⟨hs, fun he => hc he.symm⟩

/-- Characters appended one by one: the last one needs the most room. -/
theorem foldlM_append_holds {buf s : List (BitVec 8)} (h : Holds buf s) (cs : List (BitVec 8)) :
    (cs = [] ∨ s.length + (kept cs.dropLast).length + 1 < buf.length →
      ∃ buf', cs.foldlM append buf = .ok buf' ∧ Holds buf' (s ++ kept cs) ∧
        buf'.length = buf.length) ∧
    (¬(cs = [] ∨ s.length + (kept cs.dropLast).length + 1 < buf.length) →
      cs.foldlM append buf = .error .fault) := by
  induction cs using List.reverseRecOn with
  | nil => exact ⟨fun _ => ⟨buf, rfl, by simpa [kept] using h, rfl⟩, fun hno => absurd (.inl rfl) hno⟩
  | append_singleton cs c ih =>
    have hne : cs ++ [c] ≠ [] := by simp
    simp only [hne, false_or, List.dropLast_concat, List.foldlM_append]
    by_cases hprev : cs = [] ∨ s.length + (kept cs.dropLast).length + 1 < buf.length
    · obtain ⟨buf₁, hrun, hholds, hlen⟩ := ih.1 hprev
      have hlast := append_holds hholds c
      rw [List.length_append, hlen] at hlast
      rw [hrun, ok_bind, List.foldlM_cons]
      constructor
      · intro hroom
        obtain ⟨buf', happend, hholds', hlen'⟩ := hlast.1 hroom
        refine ⟨buf', ?_, ?_, hlen'⟩
        · rw [happend]
          rfl
        · rwa [kept_append, ← List.append_assoc]
      · intro hfull
        rw [hlast.2 hfull]
        rfl
    · rw [ih.2 hprev]
      refine ⟨fun hroom => ?_, fun _ => rfl⟩
      obtain ⟨-, hfull⟩ := not_or.mp hprev
      have hle : (kept cs.dropLast).length ≤ (kept cs).length :=
        ((List.dropLast_sublist cs).filter _).length_le
      omega

/-- Room for all of them is enough. -/
theorem foldlM_append_of_room {buf s cs : List (BitVec 8)} (h : Holds buf s)
    (hroom : s.length + cs.length < buf.length) :
    ∃ buf', cs.foldlM append buf = .ok buf' ∧ Holds buf' (s ++ kept cs) ∧
      buf'.length = buf.length := by
  refine (foldlM_append_holds h cs).1 ?_
  by_cases hnil : cs = []
  · exact .inl hnil
  · have hle := length_kept_le cs.dropLast
    have hpos := List.length_pos_of_ne_nil hnil
    rw [List.length_dropLast] at hle
    exact .inr (by omega)

/-! ## `hex_to_ascii` -/

/-- The character of a nibble in every place but the last. -/
def hexDigit (d : Nat) : BitVec 8 := if d = 10 then 0x3A#8 else digitByte d

/-- The nibbles of a number without those in front that are zero. -/
def significant (m : Nat) : List Nat := if m = 0 then [] else digitsOf 16 m

/-- What `hex_to_ascii` writes. -/
def hexText (n : BitVec 32) : List (BitVec 8) :=
  [0x30#8, 0x78#8] ++ (significant (n.toNat / 16)).map hexDigit ++ [digitByte (n.toNat % 16)]

theorem significant_next (m : Nat) {d : Nat} (hd : d < 16) :
    significant (m * 16 + d) = if m = 0 ∧ d = 0 then [] else significant m ++ [d] := by
  unfold significant
  by_cases hm : m = 0
  · subst hm
    by_cases hz : d = 0
    · subst hz
      rfl
    · rw [if_neg (by omega), if_neg (fun h => hz h.2), if_pos rfl, digitsOf_of_lt (by omega)]
      simp
  · rw [if_neg (by omega), if_neg (fun h => hm h.1), if_neg hm, digitsOf_of_le (by decide) (by omega)]
    congr 2
    · omega
    · omega

theorem lt_of_mem_significant {m d : Nat} (h : d ∈ significant m) : d < 16 := by
  unfold significant at h
  split at h
  · cases h
  · exact lt_of_mem_digitsOf (by decide) h

/-- A signed shift drops the sign bits that the mask cuts off. -/
theorem nibble_eq (n : BitVec 32) {i : Nat} (hi : i + 4 ≤ 32) :
    ((n.sshiftRight i &&& 0xF#32).setWidth 8).toNat = n.toNat / 2 ^ i % 16 := by
  have hmask : ∀ j, (0xF#32).getLsbD j = decide (j < 4) := by
    intro j
    have h := Nat.testBit_two_pow_sub_one 4 j
    simpa [BitVec.getLsbD] using h
  have hshift : n.sshiftRight i &&& 0xF#32 = n >>> i &&& 0xF#32 := by
    refine BitVec.eq_of_getLsbD_eq fun j hj => ?_
    rw [BitVec.getLsbD_and, BitVec.getLsbD_and, hmask, BitVec.getLsbD_sshiftRight,
      BitVec.getLsbD_ushiftRight]
    by_cases hlow : j < 4
    · have hin : ¬ 32 ≤ j := by omega
      simp [show i + j < 32 by omega, hin]
    · simp [hlow]
  have hnat : (n >>> i &&& 0xF#32).toNat = n.toNat / 2 ^ i % 16 := by
    rw [BitVec.toNat_and, BitVec.toNat_ushiftRight, Nat.shiftRight_eq_div_pow]
    exact Nat.and_two_pow_sub_one_eq_mod _ 4
  rw [hshift, BitVec.toNat_setWidth, hnat, Nat.mod_eq_of_lt]
  omega

theorem hexDigit_eq (tmp : BitVec 8) (h : tmp.toNat < 16) :
    (if 0xA#8 < tmp then tmp - 0xA#8 + 0x61#8 else tmp + 0x30#8) = hexDigit tmp.toNat ∧
      (if 0xA#8 ≤ tmp then tmp - 0xA#8 + 0x61#8 else tmp + 0x30#8) = digitByte tmp.toNat := by
  revert tmp
  decide +kernel

theorem hexDigit_ne_zero {d : Nat} (h : d < 16) : hexDigit d ≠ 0#8 := by
  unfold hexDigit
  split
  · decide
  · exact digitByte_ne_zero (by omega)

theorem nul_not_mem_hexDigits (m : Nat) : 0#8 ∉ (significant m).map hexDigit := by
  intro hin
  obtain ⟨d, hd, hzero⟩ := List.mem_map.mp hin
  exact hexDigit_ne_zero (lt_of_mem_significant hd) hzero

theorem nul_not_mem_hexText (n : BitVec 32) : 0#8 ∉ hexText n := by
  have hfront : 0#8 ∉ [0x30#8, 0x78#8] := by decide
  have hlast : 0#8 ∉ [digitByte (n.toNat % 16)] := by
    rw [List.mem_singleton]
    exact fun he => digitByte_ne_zero (by omega) he.symm
  simp only [hexText, List.mem_append, not_or]
  exact ⟨⟨hfront, nul_not_mem_hexDigits _⟩, hlast⟩

/-- The string and the flag `zeros` once the nibbles from bit `i` on are written. -/
def hexState (s rest : List (BitVec 8)) (m : Nat) : Except Stop (Bool × List (BitVec 8)) :=
  appended s rest ((significant m).map hexDigit) >>= fun str => .ok (decide (m ≠ 0), str)

theorem hexRound_state (n : BitVec 32) {i : Nat} (hi : i + 4 ≤ 32) {s : List (BitVec 8)}
    (hs : 0#8 ∉ s) (rest : List (BitVec 8)) :
    hexState s rest (n.toNat / 2 ^ (i + 4)) >>= hexRound n i =
      hexState s rest (n.toNat / 2 ^ i) := by
  have hnibble := nibble_eq n hi
  have hlt : n.toNat / 2 ^ i % 16 < 16 := Nat.mod_lt _ (by decide)
  have hsplit : n.toNat / 2 ^ i = n.toNat / 2 ^ (i + 4) * 16 + n.toNat / 2 ^ i % 16 := by
    rw [Nat.pow_add, ← Nat.div_div_eq_div_mul]
    omega
  have hdigit := (hexDigit_eq ((n.sshiftRight i &&& 0xF#32).setWidth 8) (by omega)).1
  rw [hnibble] at hdigit
  have hnext := significant_next (n.toNat / 2 ^ (i + 4)) hlt
  rw [← hsplit] at hnext
  have hzero : ((n.sshiftRight i &&& 0xF#32).setWidth 8 = 0#8) ↔ n.toNat / 2 ^ i % 16 = 0 := by
    rw [← hnibble]
    exact ⟨fun h => by rw [h]; rfl, fun h => BitVec.eq_of_toNat_eq h⟩
  generalize n.toNat / 2 ^ (i + 4) = m at hsplit hnext
  generalize n.toNat / 2 ^ i % 16 = d at hsplit hnext hlt hzero hdigit
  by_cases hskip : m = 0 ∧ d = 0
  · -- still in front of the first digit
    have hm : n.toNat / 2 ^ i = 0 := by omega
    have hrun : hexRound n i (false, s ++ 0#8 :: rest) = .ok (false, s ++ 0#8 :: rest) := by
      rw [hexRound]
      exact if_pos ⟨hzero.mpr hskip.2, rfl⟩
    simp only [hexState, hskip.1, hm, significant, if_true, List.map_nil, appended_nil,
      ok_bind, ne_eq, not_true_eq_false, decide_false, hrun]
  · rw [if_neg hskip] at hnext
    have hm : n.toNat / 2 ^ i ≠ 0 := by omega
    have hround : ∀ str, hexRound n i (decide (m ≠ 0), str) =
        append str (hexDigit d) >>= fun str => .ok (true, str) := by
      intro str
      have hgo : ¬((n.sshiftRight i &&& 0xF#32).setWidth 8 = 0#8 ∧ decide (m ≠ 0) = false) := by
        rintro ⟨hd, hflag⟩
        exact hskip ⟨by simpa using hflag, hzero.mp hd⟩
      rw [hexRound]
      simp only [if_neg hgo, hdigit]
      rfl
    have hfront : 0#8 ∉ s ++ (significant m).map hexDigit := by
      rw [List.mem_append, not_or]
      exact ⟨hs, nul_not_mem_hexDigits m⟩
    rw [hexState, hexState, hnext, List.map_append, List.map_singleton,
      ← appended_bind (f := fun str => append str (hexDigit d)) (append_eq hfront _ _), bind_assoc,
      bind_assoc]
    simp only [ok_bind, hround, hm, ne_eq, not_false_eq_true, decide_true]

theorem hexLoop_state (n : BitVec 32) {s : List (BitVec 8)} (hs : 0#8 ∉ s)
    (rest : List (BitVec 8)) :
    [28, 24, 20, 16, 12, 8, 4].foldlM (fun st i => hexRound n i st) (false, s ++ 0#8 :: rest) =
      hexState s rest (n.toNat / 2 ^ 4) := by
  have hstart : hexState s rest (n.toNat / 2 ^ 32) = .ok (false, s ++ 0#8 :: rest) := by
    rw [Nat.div_eq_of_lt n.isLt, hexState]
    simp [significant, appended_nil, ok_bind]
  have hstep : ∀ i, i + 4 ≤ 32 → hexState s rest (n.toNat / 2 ^ (i + 4)) >>= hexRound n i =
      hexState s rest (n.toNat / 2 ^ i) := fun i hi => hexRound_state n hi hs rest
  rw [← hstep 4 (by decide), ← hstep 8 (by decide), ← hstep 12 (by decide), ← hstep 16 (by decide),
    ← hstep 20 (by decide), ← hstep 24 (by decide), ← hstep 28 (by decide), hstart]
  simp only [List.foldlM_cons, List.foldlM_nil, bind_assoc, ok_bind]
  simp

/-- The loop of `hex_to_ascii`, without the flag. -/
def hexDigits (n : BitVec 32) (str : List (BitVec 8)) : Except Stop (List (BitVec 8)) :=
  [28, 24, 20, 16, 12, 8, 4].foldlM (fun st i => hexRound n i st) (false, str) >>=
    fun st => .ok st.2

theorem hexDigits_eq (n : BitVec 32) {s : List (BitVec 8)} (hs : 0#8 ∉ s)
    (rest : List (BitVec 8)) :
    hexDigits n (s ++ 0#8 :: rest) =
      appended s rest ((significant (n.toNat / 16)).map hexDigit) := by
  rw [hexDigits, hexLoop_state n hs, hexState, bind_assoc]
  exact bind_pure _

/-- **`hex_to_ascii`** clears the string in the buffer and writes its text, or writes
past the end of the buffer. -/
theorem hexToAscii_eq (n : BitVec 32) {s : List (BitVec 8)} (hs : 0#8 ∉ s)
    (rest : List (BitVec 8)) :
    hexToAscii n (s ++ 0#8 :: rest) =
      appended [] (List.replicate s.length 0#8 ++ rest) (hexText n) := by
  have hclear : List.replicate s.length 0#8 ++ (s ++ 0#8 :: rest).drop s.length =
      0#8 :: (List.replicate s.length 0#8 ++ rest) := by
    rw [List.drop_left, ← List.singleton_append, ← List.append_assoc, ← List.cons_append,
      ← List.replicate_succ', List.replicate_succ]
  generalize hfree : List.replicate s.length 0#8 ++ rest = free at hclear
  have hdigit := (hexDigit_eq ((n &&& 0xF#32).setWidth 8) (nibble_lt n)).2
  have hlast : ((n &&& 0xF#32).setWidth 8).toNat = n.toNat % 16 := by
    have h := nibble_eq n (show 0 + 4 ≤ 32 by decide)
    simpa using h
  rw [hlast] at hdigit
  have hpieces : hexToAscii n (s ++ 0#8 :: rest) =
      append (0#8 :: free) 0x30#8 >>= (fun str => append str 0x78#8) >>= hexDigits n >>=
        fun str => append str (digitByte (n.toNat % 16)) := by
    rw [hexToAscii, strlen_append_zero rest hs, ok_bind]
    simp only [hclear, hdigit, hexDigits, bind_assoc, ok_bind]
  have hfront : ∀ m, 0#8 ∉ [] ++ ([0x30#8] ++ [0x78#8] ++ (significant m).map hexDigit) := by
    intro m
    simp only [List.nil_append, List.mem_append, not_or]
    exact ⟨by decide, nul_not_mem_hexDigits m⟩
  have hfirst : append (0#8 :: free) 0x30#8 = appended [] free [0x30#8] :=
    append_eq (s := []) (by simp) free 0x30#8
  rw [hpieces, hfirst, appended_bind (append_eq (by decide) _ _),
    appended_bind (hexDigits_eq n (by decide) _), appended_bind (append_eq (hfront _) _ _)]
  rfl

end Libc
end Medusa
