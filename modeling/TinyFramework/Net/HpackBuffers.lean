/-
  Net/HpackBuffers.lean --- `mini_hpack_decode_block` on any buffer.

  The loop comes to an end whatever stands in the buffer.  It leaves the buffer only if the length
  of a string, added to the bytes in front of it, wraps and memory is granted for it, and it takes
  an index for another one only if the index does not fit into an `int`.
-/
import TinyFramework.Net.Hpack

set_option autoImplicit false

namespace TinyFramework.Net

open TinyFramework.Foundation

/-! ## What is to hold -/

/-- A length that does not wrap; or the sum that is left is still too large, or there is no memory
for it. -/
def StringSafe (alloc : Nat → Bool) (buf : Bytes) : Prop :=
  ∀ b ∈ buf.head?, b.toNat < 128 → ∀ slen n, miniHpackDecInt buf 7 = some (slen, n) →
    2 ^ 64 ≤ n + slen →
      buf.length < n + slen - 2 ^ 64 ∨ alloc ((slen + 1) % 2 ^ 64) = false

/-- The integer that stands at a place, and the entry of the static table that it is taken for. -/
def entryAt (rest : Bytes) : Option (Nat × Nat) :=
  match rest with
  | [] => none
  | b :: _ =>
      match miniHpackDecInt rest (if 128 ≤ b.toNat then 7 else 6) with
      | none => none
      | some (idx, _) =>
          if 1 ≤ toInt idx ∧ toInt idx ≤ 61 then some (idx, (toInt idx).toNat) else none

/-- The places that the loop comes to, with the pairs so far. -/
inductive Reached (alloc : Nat → Bool) (maxPairs : Int) (buf : Bytes) :
    List H2HeaderPair → Bytes → Prop
  | start : Reached alloc maxPairs buf [] buf
  | step {out out' : List H2HeaderPair} {b : UInt8} {bs rest' : Bytes} :
      Reached alloc maxPairs buf out (b :: bs) →
      decodeField alloc maxPairs out (b :: bs) = .ok (out', rest') →
      Reached alloc maxPairs buf out' rest'

/-- At a place: nothing outside of the buffer is read, there is room for the pairs, and an index is
taken for what it is. -/
structure RightAt (alloc : Nat → Bool) (maxPairs : Int) (out : List H2HeaderPair) (rest : Bytes) :
    Prop where
  inside : decodeField alloc maxPairs out rest ≠ .error .outside
  room : (out.length : Int) ≤ max maxPairs 0
  entry : ∀ idx k, entryAt rest = some (idx, k) → idx = k

/-- The decoder ends, and is right all the way. -/
def BlockLaw (alloc : Nat → Bool) (maxPairs : Int) (buf : Bytes) : Prop :=
  miniHpackDecodeBlock alloc buf maxPairs ≠ .error .fuel ∧
    miniHpackDecodeBlock alloc buf maxPairs ≠ .error .outside ∧
    ∀ out rest, Reached alloc maxPairs buf out rest → RightAt alloc maxPairs out rest

/-- The strings of a literal. -/
def StringsSafe (alloc : Nat → Bool) (rest : Bytes) : Prop :=
  ∀ b ∈ rest.head?, b.toNat < 128 → ∀ idx c, miniHpackDecInt rest 6 = some (idx, c) →
    (idx = 0 → StringSafe alloc (rest.drop c)) ∧
      ∀ name behind, literalName alloc idx (rest.drop c) = .ok (name, behind) →
        StringSafe alloc behind

/-- What stands at every place the loop comes to: strings that are safe, and no index that becomes
one of the static table only when it is narrowed. -/
def BlockSafe (alloc : Nat → Bool) (maxPairs : Int) (buf : Bytes) : Prop :=
  ∀ out rest, Reached alloc maxPairs buf out rest →
    StringsSafe alloc rest ∧ ∀ idx k, entryAt rest = some (idx, k) → idx < 2 ^ 32

/-! ## Integers -/

theorem decIntRest_bounds {bs : Bytes} {m v i idx c : Nat}
    (h : decIntRest bs m v i = some (idx, c)) : idx < 2 ^ 64 ∧ i < c ∧ c ≤ i + bs.length := by
  induction bs generalizing m v i with
  | nil => cases h
  | cons b bs ih =>
    rw [decIntRest] at h
    rw [List.length_cons]
    split_ifs at h with hlast hover
    · obtain ⟨rfl, rfl⟩ := Prod.mk.inj (Option.some.inj h)
      exact ⟨Nat.mod_lt _ (by decide), by omega, by omega⟩
    · obtain ⟨hidx, hi, hc⟩ := ih h
      exact ⟨hidx, by omega, by omega⟩

theorem decInt_bounds {buf : Bytes} {n idx c : Nat} (hn : n ≤ 7)
    (h : miniHpackDecInt buf n = some (idx, c)) : idx < 2 ^ 64 ∧ 0 < c ∧ c ≤ buf.length := by
  cases buf with
  | nil => cases h
  | cons b bs =>
    rw [miniHpackDecInt] at h
    rw [List.length_cons]
    split_ifs at h with hsmall
    · obtain ⟨rfl, rfl⟩ := Prod.mk.inj (Option.some.inj h)
      have hpow : 2 ^ n ≤ 2 ^ 7 := Nat.pow_le_pow_right (by decide) hn
      exact ⟨by omega, by omega, by omega⟩
    · obtain ⟨hidx, hi, hc⟩ := decIntRest_bounds h
      exact ⟨hidx, by omega, by omega⟩

/-- An index is taken for itself exactly if it fits. -/
theorem entryAt_eq {rest : Bytes} {idx k : Nat} (h : entryAt rest = some (idx, k)) :
    idx = k ↔ idx < 2 ^ 32 := by
  unfold entryAt at h
  split at h
  · cases h
  · split at h
    · cases h
    · split_ifs at h with hentry
      obtain ⟨rfl, rfl⟩ := Prod.mk.inj (Option.some.inj h)
      unfold toInt at hentry ⊢
      split_ifs at hentry ⊢ <;> omega

/-! ## Strings -/

theorem decString_inside_iff (alloc : Nat → Bool) {buf : Bytes} (hsize : buf.length < 2 ^ 64) :
    hpackDecString alloc buf ≠ .error .outside ↔ StringSafe alloc buf := by
  unfold StringSafe
  cases buf with
  | nil => exact iff_of_true (by simp [hpackDecString]) fun b hb => by cases hb
  | cons b bs =>
    rw [hpackDecString]
    by_cases hhuff : 128 ≤ b.toNat
    · rw [if_pos hhuff]
      refine iff_of_true (by simp) fun b' hb' hlow => ?_
      rw [← Option.some.inj hb'] at hlow
      exact absurd hhuff (Nat.not_le_of_lt hlow)
    · rw [if_neg hhuff]
      cases hint : miniHpackDecInt (b :: bs) 7 with
      | none => exact iff_of_true (by simp) fun _ _ _ _ _ h => by cases h
      | some sn =>
        obtain ⟨slen, n⟩ := sn
        obtain ⟨hslen, hpos, hle⟩ := decInt_bounds (le_refl 7) hint
        dsimp only
        constructor
        · intro hin b' _ _ slen' n' hsn hwrap
          obtain ⟨rfl, rfl⟩ := Prod.mk.inj (Option.some.inj hsn)
          have hmod : (n + slen) % 2 ^ 64 = n + slen - 2 ^ 64 := by omega
          rw [hmod] at hin
          by_contra hno
          rw [not_or] at hno
          rw [if_neg hno.1, if_neg hno.2, if_pos (by omega)] at hin
          exact hin rfl
        · intro hsafe
          split_ifs with hshort hmem hout
          · simp
          · simp
          -- the sum was small enough, and the string is not there
          · have hwrap : 2 ^ 64 ≤ n + slen := by
              by_contra hlt
              rw [Nat.mod_eq_of_lt (by omega)] at hshort
              exact hshort hout
            have hmod : (n + slen) % 2 ^ 64 = n + slen - 2 ^ 64 := by omega
            rw [hmod] at hshort
            exact ((hsafe b rfl (by omega) slen n rfl hwrap).elim hshort hmem).elim
          · simp

theorem pushPair_inside (maxPairs : Int) (out : List H2HeaderPair) (pair : H2HeaderPair)
    (rest : Bytes) : pushPair maxPairs out pair rest ≠ .error .outside := by
  unfold pushPair
  split_ifs
  · simp
  · simp

theorem literalName_left {alloc : Nat → Bool} {idx : Nat} {rest name behind : Bytes}
    (h : literalName alloc idx rest = .ok (name, behind)) : behind.length ≤ rest.length := by
  unfold literalName at h
  split_ifs at h with hidx
  · cases hname : miniHpackStaticName (toInt idx) with
    | none =>
      rw [hname] at h
      cases h
    | some sn =>
      rw [hname] at h
      obtain ⟨-, rfl⟩ := Prod.mk.inj (Except.ok.inj h)
      exact le_refl _
  · cases hstring : hpackDecString alloc rest with
    | error e =>
      rw [hstring] at h
      cases h
    | ok nc =>
      rw [hstring] at h
      obtain ⟨-, rfl⟩ := Prod.mk.inj (Except.ok.inj h)
      rw [List.length_drop]
      exact Nat.sub_le _ _

theorem literalName_inside_iff (alloc : Nat → Bool) (idx : Nat) {rest : Bytes}
    (hsize : rest.length < 2 ^ 64) :
    literalName alloc idx rest ≠ .error .outside ↔ (idx = 0 → StringSafe alloc rest) := by
  unfold literalName
  split_ifs with hidx
  · refine iff_of_true ?_ fun h0 => absurd hidx (by omega)
    cases miniHpackStaticName (toInt idx) with
    | none => simp
    | some name => simp
  · rw [← decString_inside_iff alloc hsize]
    have hzero : idx = 0 := by omega
    cases hpackDecString alloc rest with
    | error e =>
      show Except.error e ≠ Except.error (ε := HpackStop) (α := Bytes × Bytes) .outside ↔ _
      simp [hzero]
    | ok nc => exact iff_of_true (fun h => by cases h) fun _ h => by cases h

/-- A field stays inside the buffer exactly if its strings do. -/
theorem decodeField_inside_iff {alloc : Nat → Bool} {maxPairs : Int} {out : List H2HeaderPair}
    {rest : Bytes} (hsize : rest.length < 2 ^ 64) :
    decodeField alloc maxPairs out rest ≠ .error .outside ↔ StringsSafe alloc rest := by
  unfold StringsSafe
  cases rest with
  | nil => exact iff_of_true (by simp [decodeField]) fun b hb => by cases hb
  | cons b bs =>
    rw [decodeField]
    by_cases hb : 128 ≤ b.toNat
    · rw [if_pos hb]
      refine iff_of_true ?_ fun b' hb' hlow => ?_
      · cases miniHpackDecInt (b :: bs) 7 with
        | none => simp
        | some ic =>
          dsimp only
          cases miniHpackStaticName (toInt ic.1) with
          | none => simp
          | some name => exact pushPair_inside _ _ _ _
      · rw [← Option.some.inj hb'] at hlow
        exact absurd hb (Nat.not_le_of_lt hlow)
    · rw [if_neg hb]
      cases hint : miniHpackDecInt (b :: bs) 6 with
      | none => exact iff_of_true (by simp) fun _ _ _ _ _ h => by cases h
      | some ic =>
        obtain ⟨idx, c⟩ := ic
        have hdrop : (List.drop c (b :: bs)).length < 2 ^ 64 :=
          (List.length_drop ▸ Nat.sub_le _ _ : (List.drop c (b :: bs)).length ≤ _).trans_lt hsize
        have hiff := literalName_inside_iff alloc idx hdrop
        have hall : (∀ b' ∈ (b :: bs).head?, b'.toNat < 128 → ∀ idx' c',
            some (idx, c) = some (idx', c') →
              (idx' = 0 → StringSafe alloc (List.drop c' (b :: bs))) ∧
                ∀ name behind, literalName alloc idx' (List.drop c' (b :: bs)) = .ok (name, behind) →
                  StringSafe alloc behind) ↔
            literalName alloc idx (List.drop c (b :: bs)) ≠ .error .outside ∧
              ∀ name behind, literalName alloc idx (List.drop c (b :: bs)) = .ok (name, behind) →
                StringSafe alloc behind := by
          rw [hiff]
          constructor
          · intro h
            exact h b rfl (by omega) idx c rfl
          · rintro h b' - - idx' c' hic
            obtain ⟨rfl, rfl⟩ := Prod.mk.inj (Option.some.inj hic)
            exact h
        rw [hall]
        simp only [bind, Except.bind]
        cases hname : literalName alloc idx (List.drop c (b :: bs)) with
        | error e =>
          dsimp only
          constructor
          · intro h
            refine ⟨fun he => h ?_, fun _ _ hok => by cases hok⟩
            rw [Except.error.inj he]
          · intro h he
            refine h.1 ?_
            rw [Except.error.inj he]
        | ok nr =>
          obtain ⟨name, behind⟩ := nr
          have hbehind := (literalName_left hname).trans_lt hdrop
          have hval := decString_inside_iff alloc hbehind
          dsimp only
          constructor
          · intro h
            refine ⟨(fun he => by cases he), fun name' behind' hok => ?_⟩
            obtain ⟨rfl, rfl⟩ := Prod.mk.inj (Except.ok.inj hok)
            refine hval.1 fun hout => h ?_
            rw [hout]
          · rintro ⟨-, h⟩ hout
            have hin := hval.2 (h name behind rfl)
            cases hstring : hpackDecString alloc behind with
            | error e =>
              rw [hstring] at hout hin
              dsimp only at hout
              rw [Except.error.inj hout] at hin
              exact hin rfl
            | ok vc =>
              rw [hstring] at hout
              exact pushPair_inside _ _ _ _ hout

/-! ## The loop -/

theorem decodeField_shrinks {alloc : Nat → Bool} {maxPairs : Int} {out out' : List H2HeaderPair}
    {b : UInt8} {bs rest' : Bytes}
    (h : decodeField alloc maxPairs out (b :: bs) = .ok (out', rest')) :
    rest'.length < (b :: bs).length := by
  rcases decodeField_ok h with ⟨-, idx, c, hstep⟩ | ⟨-, idx, c, name, behind, val, cc, hstep⟩
  · obtain ⟨-, hpos, -⟩ := decInt_bounds (le_refl 7) hstep.int
    rw [hstep.left, List.length_drop, List.length_cons]
    omega
  · obtain ⟨-, hpos, -⟩ := decInt_bounds (by omega) hstep.int
    have hbehind := literalName_left hstep.readName
    rw [List.length_drop] at hbehind
    rw [hstep.left, List.length_drop]
    rw [List.length_cons] at hbehind ⊢
    omega

theorem pairs_room {alloc : Nat → Bool} {maxPairs : Int} {out out' : List H2HeaderPair}
    {b : UInt8} {bs rest' : Bytes}
    (h : decodeField alloc maxPairs out (b :: bs) = .ok (out', rest'))
    (hroom : (out.length : Int) ≤ max maxPairs 0) : (out'.length : Int) ≤ max maxPairs 0 := by
  have hpush : ∀ pair : H2HeaderPair, (out.length : Int) < maxPairs →
      ((out ++ [pair]).length : Int) ≤ max maxPairs 0 := fun pair hlt => by
    rw [List.length_append, List.length_singleton]
    omega
  rcases decodeField_ok h with ⟨-, idx, c, hstep⟩ | ⟨-, idx, c, name, behind, val, cc, hstep⟩
  · rcases hstep.pair with ⟨-, rfl⟩ | ⟨pair, hlt, rfl⟩
    · exact hroom
    · exact hpush pair hlt
  · rw [hstep.pair]
    exact hpush _ hstep.room

theorem Reached.bounds {alloc : Nat → Bool} {maxPairs : Int} {buf rest : Bytes}
    {out : List H2HeaderPair} (h : Reached alloc maxPairs buf out rest) :
    (out.length : Int) ≤ max maxPairs 0 ∧ rest.length ≤ buf.length := by
  induction h with
  | start => exact ⟨le_max_right _ _, le_refl _⟩
  | step _ hstep ih => exact ⟨pairs_room hstep ih.1, (decodeField_shrinks hstep).le.trans ih.2⟩

theorem decString_ne_fuel (alloc : Nat → Bool) (buf : Bytes) :
    hpackDecString alloc buf ≠ .error .fuel := by
  unfold hpackDecString
  split
  · simp
  · split_ifs
    · simp
    · split
      · simp
      · split_ifs <;> simp

theorem literalName_ne_fuel (alloc : Nat → Bool) (idx : Nat) (rest : Bytes) :
    literalName alloc idx rest ≠ .error .fuel := by
  have hstring := decString_ne_fuel alloc rest
  unfold literalName
  split_ifs
  · cases miniHpackStaticName (toInt idx) with
    | none => simp
    | some name => simp
  · cases hname : hpackDecString alloc rest with
    | error e =>
      rw [hname] at hstring
      show Except.error e ≠ Except.error (ε := HpackStop) (α := Bytes × Bytes) .fuel
      simpa using hstring
    | ok nc => exact fun h => by cases h

theorem decodeField_ne_fuel (alloc : Nat → Bool) (maxPairs : Int) (out : List H2HeaderPair)
    (rest : Bytes) : decodeField alloc maxPairs out rest ≠ .error .fuel := by
  have hpush : ∀ pair t, pushPair maxPairs out pair t ≠ .error .fuel := fun pair t => by
    unfold pushPair
    split_ifs <;> simp
  cases rest with
  | nil => simp [decodeField]
  | cons b bs =>
    rw [decodeField]
    split_ifs with hb
    · cases miniHpackDecInt (b :: bs) 7 with
      | none => simp
      | some ic =>
        dsimp only
        cases miniHpackStaticName (toInt ic.1) with
        | none => simp
        | some name => exact hpush _ _
    · cases miniHpackDecInt (b :: bs) 6 with
      | none => simp
      | some ic =>
        simp only [bind, Except.bind]
        have hname := literalName_ne_fuel alloc ic.1 (List.drop ic.2 (b :: bs))
        cases hnr : literalName alloc ic.1 (List.drop ic.2 (b :: bs)) with
        | error e =>
          rw [hnr] at hname
          simpa using hname
        | ok nr =>
          dsimp only
          have hval := decString_ne_fuel alloc nr.2
          cases hvc : hpackDecString alloc nr.2 with
          | error e =>
            rw [hvc] at hval
            simpa using hval
          | ok vc => exact hpush _ _

/-- The loop does not run out, and it leaves the buffer only at a place that it comes to. -/
theorem decodeFields_error {alloc : Nat → Bool} {maxPairs : Int} {buf rest : Bytes}
    {out : List H2HeaderPair} {fuel : Nat} {e : HpackStop}
    (hreached : Reached alloc maxPairs buf out rest) (hfuel : rest.length ≤ fuel)
    (h : decodeFields alloc maxPairs fuel out rest = .error e) :
    e ≠ .fuel ∧ ∃ out' rest', Reached alloc maxPairs buf out' rest' ∧
      decodeField alloc maxPairs out' rest' = .error e := by
  induction fuel generalizing out rest with
  | zero =>
    rw [List.length_eq_zero_iff.1 (Nat.le_zero.1 hfuel), decodeFields_nil] at h
    cases h
  | succ fuel ih =>
    cases rest with
    | nil =>
      rw [decodeFields_nil] at h
      cases h
    | cons b bs =>
      rw [decodeFields_step alloc maxPairs fuel out (List.cons_ne_nil b bs)] at h
      cases hstep : decodeField alloc maxPairs out (b :: bs) with
      | error e' =>
        rw [hstep] at h
        obtain rfl := Except.error.inj h
        refine ⟨?_, out, b :: bs, hreached, hstep⟩
        rintro rfl
        exact decodeField_ne_fuel alloc maxPairs out (b :: bs) hstep
      | ok r =>
        obtain ⟨out', rest'⟩ := r
        rw [hstep] at h
        have hshorter := decodeField_shrinks hstep
        exact ih (hreached.step hstep) (by omega) h

theorem blockLaw_iff {alloc : Nat → Bool} {maxPairs : Int} {buf : Bytes}
    (hsize : buf.length < 2 ^ 64) : BlockLaw alloc maxPairs buf ↔ BlockSafe alloc maxPairs buf := by
  have hplace : ∀ out rest, Reached alloc maxPairs buf out rest → rest.length < 2 ^ 64 :=
    fun out rest hreached => hreached.bounds.2.trans_lt hsize
  constructor
  · rintro ⟨-, -, hright⟩ out rest hreached
    have hat := hright out rest hreached
    exact ⟨(decodeField_inside_iff (hplace out rest hreached)).1 hat.inside,
      fun idx k hentry => (entryAt_eq hentry).1 (hat.entry idx k hentry)⟩
  · intro hsafe
    have hright : ∀ out rest, Reached alloc maxPairs buf out rest →
        RightAt alloc maxPairs out rest := by
      intro out rest hreached
      obtain ⟨hstrings, hentries⟩ := hsafe out rest hreached
      exact ⟨(decodeField_inside_iff (hplace out rest hreached)).2 hstrings, hreached.bounds.1,
        fun idx k hentry => (entryAt_eq hentry).2 (hentries idx k hentry)⟩
    refine ⟨fun h => ?_, fun h => ?_, hright⟩
    · exact (decodeFields_error .start (le_refl _) h).1 rfl
    · obtain ⟨-, out, rest, hreached, hstep⟩ := decodeFields_error .start (le_refl _) h
      exact (hright out rest hreached).inside hstep

/-! ## The decoder as a whole -/

/-- The decoder is right on fields and on a buffer exactly if every field is safe, and so is every
place that it comes to in the buffer. -/
theorem hpackDecoder_iff {alloc : Nat → Bool} {maxPairs : Int} {fields : List HpackField}
    {buf : Bytes} (hroomy : Roomy alloc (fieldBlock fields).length)
    (hsize : buf.length < 2 ^ 64) :
    ((DecodesFields alloc fields ∧ ∀ f ∈ fields, DecodesFields alloc [f]) ∧
        BlockLaw alloc maxPairs buf ∧ hpackDecString alloc buf ≠ .error .outside) ↔
      (∀ f ∈ fields, f.Safe) ∧ BlockSafe alloc maxPairs buf ∧ StringSafe alloc buf := by
  rw [decodes_iff hroomy, blockLaw_iff hsize, decString_inside_iff alloc hsize]

/-- A field of the static table and a literal, and a buffer with the first one. -/
theorem hpackDecoder_iff_method :
    let fields : List HpackField :=
      [.indexed ⟨2, by decide, by decide⟩, .literal .without (.text (ascii "a")) (ascii "b")]
    let granted : Nat → Bool := fun n => decide (n < 2 ^ 31)
    ((∀ f ∈ fields, f.Safe) ∧ BlockSafe granted 4 [0x82] ∧ StringSafe granted [0x82]) ∧
      (DecodesFields granted fields ∧ ∀ f ∈ fields, DecodesFields granted [f]) ∧
        BlockLaw granted 4 [0x82] ∧ hpackDecString granted [0x82] ≠ .error .outside := by
  intro fields granted
  have hliteral : (HpackField.literal .without (.text (ascii "a")) (ascii "b")).Safe := by
    refine ⟨Nat.zero_lt_succ 14, by decide, fun text htext => ?_⟩
    obtain rfl := FieldName.text.inj htext
    decide
  have hfields : ∀ f ∈ fields, f.Safe :=
    List.forall_mem_cons.2 ⟨trivial, List.forall_mem_singleton.2 hliteral⟩
  -- behind the field nothing is left
  have hplaces : ∀ out rest, Reached granted 4 [0x82] out rest →
      out = [] ∧ rest = [0x82] ∨ rest = [] := by
    intro out rest h
    induction h with
    | start => exact Or.inl ⟨rfl, rfl⟩
    | step _ hdecode ih =>
      rcases ih with ⟨rfl, hrest⟩ | hnil
      · have hone : decodeField granted 4 [] [0x82] = .ok ([⟨ascii ":method", ascii "GET"⟩], []) := rfl
        rw [hrest, hone] at hdecode
        exact Or.inr (Prod.mk.inj (Except.ok.inj hdecode)).2.symm
      · cases hnil
  have hblock : BlockSafe granted 4 [0x82] := by
    intro out rest h
    rcases hplaces out rest h with ⟨-, rfl⟩ | rfl
    · refine ⟨fun b hb hlow => ?_, fun idx k hentry => ?_⟩
      · obtain rfl := Option.some.inj hb
        exact absurd hlow (by decide)
      · obtain ⟨rfl, -⟩ := Prod.mk.inj (Option.some.inj hentry)
        decide
    · exact ⟨fun b hb => absurd hb (Option.not_mem_none b), fun idx k hentry => by cases hentry⟩
  have hstring : StringSafe granted [0x82] := by
    intro b hb hlow
    obtain rfl := Option.some.inj hb
    exact absurd hlow (by decide)
  have hlength : (fieldBlock fields).length = 6 := rfl
  refine ⟨⟨hfields, hblock, hstring⟩,
    (hpackDecoder_iff ⟨fun n hn => ?_, ?_⟩ (by decide)).2 ⟨hfields, hblock, hstring⟩⟩
  · rw [hlength] at hn
    exact decide_eq_true (by omega)
  · rw [hlength]
    decide

/-- A literal that is never indexed, with the name `a` and the value `b`: its first byte is read as
the index 16, and the block is refused. -/
theorem never_indexed_refused :
    ¬ DecodesFields (fun n => decide (n < 2 ^ 31))
      [.literal .never (.text (ascii "a")) (ascii "b")] := by
  intro h
  have hblock : miniHpackDecodeBlock (fun n => decide (n < 2 ^ 31))
      (fieldBlock [.literal .never (.text (ascii "a")) (ascii "b")]) 4 = .error .bad := rfl
  exact absurd ((h 4 (by decide)).symm.trans hblock) (by simp)

end TinyFramework.Net
