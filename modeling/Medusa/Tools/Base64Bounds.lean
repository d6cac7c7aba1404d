import Medusa.Tools.Base64

/-!
# The bounds of base64_decode

Text of any bytes: the last two characters are read before anything is known of them,
and every character but `=` indexes the table as a signed number.  The reads stay in
bounds exactly for text with a last character and no byte from 128 on.
-/

namespace Medusa
namespace Tools

open Machine Kernel

variable {data : List (BitVec 8)} {kmalloc : Nat → Option (List (BitVec 8))}

/-! ## Sextets -/

/-- A character that is looked up without a fault is below 128. -/
theorem readable_of_nextSextet {i s : Nat} {c : BitVec 8} (hfetch : fetch data i = .ok c)
    (hrun : nextSextet data i = .ok s) : Readable c := by
  unfold Readable
  rw [nextSextet, hfetch, ok_bind] at hrun
  by_cases hpad : c = charByte '='
  · rw [hpad]
    decide
  · rw [if_neg hpad] at hrun
    by_cases hsigned : c.toInt < 0
    · rw [if_pos hsigned] at hrun
      cases hrun
    · rw [BitVec.toInt_eq_toNat_cond] at hsigned
      split at hsigned
      · omega
      · have hlt := c.isLt
        omega

theorem readable_of_decodeRound {outputLength j : Nat} {taken rest decoded : List (BitVec 8)}
    {a b c d : BitVec 8} {r : Nat × List (BitVec 8)}
    (hrun : decodeRound (taken ++ a :: b :: c :: d :: rest) outputLength taken.length j decoded =
      .ok r) : Readable a ∧ Readable b ∧ Readable c ∧ Readable d := by
  have hfetch := fetch_append_add taken (a :: b :: c :: d :: rest)
  obtain ⟨sextetA, hA, hrun⟩ := bind_eq_ok hrun
  obtain ⟨sextetB, hB, hrun⟩ := bind_eq_ok hrun
  obtain ⟨sextetC, hC, hrun⟩ := bind_eq_ok hrun
  obtain ⟨sextetD, hD, -⟩ := bind_eq_ok hrun
  exact ⟨readable_of_nextSextet (hfetch 0) hA, readable_of_nextSextet (hfetch 1) hB,
    readable_of_nextSextet (hfetch 2) hC, readable_of_nextSextet (hfetch 3) hD⟩

/-- The loop looks up every character. -/
theorem readable_of_decodeLoop {outputLength fuel j : Nat} {taken rest decoded r : List (BitVec 8)}
    (hfour : rest.length % 4 = 0)
    (hrun : decodeLoop (taken ++ rest) (taken.length + rest.length) outputLength fuel taken.length
      j decoded = .ok r) : ∀ c ∈ rest, Readable c := by
  induction fuel generalizing taken rest j decoded with
  | zero => cases hrun
  | succ fuel ih =>
    match rest with
    | [] => simp
    | [_] | [_, _] | [_, _, _] => simp at hfour
    | a :: b :: c :: d :: rest =>
      rw [decodeLoop, if_pos (by simp)] at hrun
      obtain ⟨⟨j', decoded'⟩, hround, hrun⟩ := bind_eq_ok hrun
      obtain ⟨ha, hb, hc, hd⟩ := readable_of_decodeRound hround
      have hlen : taken.length + (a :: b :: c :: d :: rest).length =
          (taken ++ [a, b, c, d]).length + rest.length := by simp; omega
      have hdata : taken ++ a :: b :: c :: d :: rest = (taken ++ [a, b, c, d]) ++ rest := by simp
      have hnext : taken.length + 4 = (taken ++ [a, b, c, d]).length := by simp
      rw [hlen, hdata, hnext] at hrun
      have hrest := ih (by simp at hfour; omega) hrun
      simp only [List.forall_mem_cons]
      exact ⟨ha, hb, hc, hd, hrest⟩

/-! ## The length -/

/-- The number of `=` among the last two characters. -/
def padding (data : List (BitVec 8)) : Nat :=
  (data.drop (data.length - 2)).count (charByte '=')

/-- What is reported for text in groups of four: three bytes a group, less the padding. -/
def reported (data : List (BitVec 8)) : Nat := data.length / 4 * 3 - padding data

theorem decodedLength_eq (hne : data ≠ []) (hfour : data.length % 4 = 0)
    (hlen : data.length < 2 ^ 32) : decodedLength data data.length = .ok (reported data) := by
  have hpos := List.length_pos_of_ne_nil hne
  obtain ⟨front, x, y, rfl⟩ : ∃ front x y, data = front ++ [x, y] := by
    refine ⟨data.take (data.length - 2), data[data.length - 2], data[data.length - 1], ?_⟩
    have hdrop : data.drop (data.length - 2) = [data[data.length - 2], data[data.length - 1]] := by
      rw [List.drop_eq_getElem_cons (by omega), List.drop_eq_getElem_cons (by omega),
        List.drop_eq_nil_of_le (by omega)]
      simp only [show data.length - 2 + 1 = data.length - 1 by omega]
    rw [← hdrop, List.take_append_drop]
  have htotal : (front ++ [x, y]).length = front.length + 2 := by simp
  rw [htotal] at hfour hlen hpos
  have hlast : fetch (front ++ [x, y]) (wsub (front.length + 2) 1) = .ok y := by
    rw [wsub_of_le (by omega) hlen, show front.length + 2 - 1 = front.length + 1 by omega,
      fetch_append_add]
    rfl
  have hsecond : fetch (front ++ [x, y]) (wsub (front.length + 2) 2) = .ok x := by
    rw [wsub_of_le (by omega) hlen, Nat.add_sub_cancel, fetch_append_cons]
  have hpadding : padding (front ++ [x, y]) =
      (if y = charByte '=' then 1 else 0) + (if x = charByte '=' then 1 else 0) := by
    rw [padding, htotal, Nat.add_sub_cancel, List.drop_left, List.count_cons, List.count_cons,
      List.count_nil, Nat.zero_add]
    simp only [beq_iff_eq]
  unfold decodedLength
  rw [reported, hpadding, htotal, hlast, ok_bind, hsecond, ok_bind]
  by_cases hy : y = charByte '='
  · rw [if_pos hy, if_pos hy, wsub_of_le (a := (front.length + 2) / 4 * 3) (by omega) (by omega)]
    by_cases hx : x = charByte '='
    · rw [if_pos hx, if_pos hx, wsub_of_le (by omega) (by omega), Nat.sub_sub]
      rfl
    · rw [if_neg hx, if_neg hx]
      rfl
  · rw [if_neg hy, if_neg hy]
    by_cases hx : x = charByte '='
    · rw [if_pos hx, if_pos hx, wsub_of_le (by omega) (by omega)]
      rfl
    · rw [if_neg hx, if_neg hx]
      rfl

theorem eq_nil_of_short (hfour : data.length % 4 = 0)
    (hshort : ∀ a b c d rest, data = a :: b :: c :: d :: rest → False) : data = [] := by
  rcases data with _ | ⟨a, _ | ⟨b, _ | ⟨c, _ | ⟨d, rest⟩⟩⟩⟩
  · rfl
  · simp at hfour
  · simp at hfour
  · simp at hfour
  · exact (hshort a b c d rest rfl).elim

theorem length_decodeGroups (hfour : data.length % 4 = 0) :
    (decodeGroups data).length = data.length / 4 * 3 := by
  fun_induction decodeGroups data with
  | case1 a b c d rest ih =>
    have hrest := ih (by simp at hfour; omega)
    simp only [List.length_append, hrest, groupBytes, List.length_cons, List.length_nil]
    omega
  | case2 data hshort =>
    rw [eq_nil_of_short hfour hshort]
    rfl

/-! ## The whole call -/

/-- A call that reads and writes nothing out of bounds, and reports no more than three
bytes for four characters. -/
def InBounds (kmalloc : Nat → Option (List (BitVec 8))) (data : List (BitVec 8)) : Prop :=
  ∃ decoded outputLength, base64Decode kmalloc data data.length = .ok (decoded, outputLength) ∧
    ∀ n, outputLength = some n → n ≤ 3 * data.length / 4

/-- **`base64_decode` stays in bounds** exactly for text that is not in groups of four,
and for text that is not empty if there is no block for it or all its bytes are below
128. -/
theorem inBounds_iff (hlen : data.length < 2 ^ 32)
    (hkmalloc : ∀ n buf, kmalloc n = some buf → buf.length = n) :
    InBounds kmalloc data ↔
      data.length % 4 ≠ 0 ∨
        (data ≠ [] ∧ (kmalloc (reported data) = none ∨ ∀ c ∈ data, c.toNat < 128)) := by
  by_cases hfour : data.length % 4 = 0
  · rw [or_iff_right (not_not.mpr hfour)]
    by_cases hne : data = []
    · -- the length wraps, and the last character is far behind the text
      subst hne
      refine iff_of_false ?_ (fun h => h.1 rfl)
      rintro ⟨decoded, outputLength, hrun, -⟩
      cases hrun
    · have hreported : reported data ≤ 3 * data.length / 4 := by
        rw [reported]
        omega
      have hlength := decodedLength_eq hne hfour hlen
      rw [InBounds, base64Decode, if_neg (not_not.mpr hfour), hlength]
      simp only [ok_bind]
      cases hbuf : kmalloc (reported data) with
      | none =>
        refine iff_of_true ⟨none, some (reported data), rfl, ?_⟩ ⟨hne, .inl rfl⟩
        rintro n ⟨⟩
        exact hreported
      | some buf =>
        have hroom := hkmalloc _ _ hbuf
        constructor
        · rintro ⟨decoded, outputLength, hrun, -⟩
          obtain ⟨decoded', hloop, -⟩ := bind_eq_ok hrun
          have hread := @readable_of_decodeLoop (reported data) (data.length + 1) 0 [] data buf
            decoded' hfour (by simpa using hloop)
          exact ⟨hne, .inr hread⟩
        · rintro ⟨-, hread⟩
          have hread := hread.resolve_left (by simp)
          have hfits : buf.length ≤ (decodeGroups data).length := by
            rw [length_decodeGroups hfour, hroom, reported]
            omega
          have hloop := @decodeLoop_spec (reported data) [] data [] buf (data.length + 1) hread
            hfour (by omega) (by simpa using hroom) hfits
          simp only [List.nil_append, List.length_nil, Nat.zero_add] at hloop
          refine ⟨some ((decodeGroups data).take buf.length), some (reported data), ?_, ?_⟩
          · show decodeLoop data data.length _ _ 0 0 buf >>= _ = _
            rw [hloop]
            rfl
          · rintro n ⟨⟩
            exact hreported
  · refine iff_of_true ⟨none, none, ?_, ?_⟩ (.inl hfour)
    · rw [base64Decode, if_pos hfour]
      rfl
    · rintro n ⟨⟩

/-- `"TQ=="`. -/
theorem inBounds_padded :
    InBounds (fun n => some (List.replicate n 0)) (['T', 'Q', '=', '='].map charByte) := by
  refine (inBounds_iff (by decide) ?_).mpr (.inr ⟨by decide, .inr (by decide)⟩)
  rintro n buf ⟨⟩
  exact List.length_replicate

/-- The empty text, and one with a byte of 128. -/
theorem not_inBounds :
    ¬ InBounds (fun n => some (List.replicate n 0)) [] ∧
      ¬ InBounds (fun n => some (List.replicate n 0)) [0x80#8, 0x41#8, 0x41#8, 0x41#8] := by
  constructor
  · rintro ⟨decoded, outputLength, hrun, -⟩
    cases hrun
  · rintro ⟨decoded, outputLength, hrun, -⟩
    have hfault : base64Decode (fun n => some (List.replicate n 0))
        [0x80#8, 0x41#8, 0x41#8, 0x41#8] 4 = .error .fault := by decide
    cases hfault.symm.trans hrun

end Tools
end Medusa
