/-
  Net/Hpack.lean --- header compression of HTTP/2.

  A buffer is the list of its bytes, from the place of a read on.  Which sizes `malloc` grants is a
  parameter; `strdup` gets its memory.  The strings that are handed out are C strings.

  The decoder takes every literal for one with a 6-bit index.  Where the form has a 4-bit index the
  bits above it are those of the form, and an index of 15 and more goes on in the next byte.
-/
import TinyFramework.Foundation.CText
import Mathlib.Tactic.Ring

set_option autoImplicit false

namespace TinyFramework.Net

open TinyFramework.Foundation

/-! ## The static table -/

/-- `STATIC_NAMES`, from index 1 on -/
def staticNames : List String :=
  [":authority", ":method", ":method", ":path", ":path", ":scheme", ":scheme",
    ":status", ":status", ":status", ":status", ":status", ":status", ":status",
    "accept-charset", "accept-encoding", "accept-language", "accept-ranges", "accept",
    "access-control-allow-origin", "age",
    "allow", "authorization", "cache-control", "content-disposition", "content-encoding",
    "content-language", "content-length",
    "content-location", "content-range", "content-type", "cookie", "date", "etag", "expect",
    "expires", "from", "host", "if-match", "if-modified-since", "if-none-match", "if-range",
    "if-unmodified-since", "last-modified", "link", "location", "max-forwards",
    "proxy-authenticate", "proxy-authorization",
    "range", "referer", "refresh", "retry-after", "server", "set-cookie",
    "strict-transport-security",
    "transfer-encoding", "user-agent", "vary", "via", "www-authenticate"]

/-- `STATIC_VALUES`, from index 1 on -/
def staticValues : List String :=
  ["", "GET", "POST", "/", "/index.html", "http", "https",
    "200", "204", "206", "304", "400", "404", "500",
    "", "gzip, deflate", "", "", "", "", ""] ++ List.replicate 40 ""

/-- `mini_hpack_static_name` -/
def miniHpackStaticName (idx : Int) : Option Bytes :=
  if 1 ≤ idx ∧ idx ≤ 61 then some (ascii (staticNames.getD (idx.toNat - 1) "")) else none

/-- `mini_hpack_static_value` -/
def miniHpackStaticValue (idx : Int) : Option Bytes :=
  if 1 ≤ idx ∧ idx ≤ 61 then some (ascii (staticValues.getD (idx.toNat - 1) "")) else none

/-- `(int)idx` of a `uint64_t`. -/
def toInt (idx : Nat) : Int :=
  if idx % 2 ^ 32 < 2 ^ 31 then (idx % 2 ^ 32 : Nat) else (idx % 2 ^ 32 : Nat) - 2 ^ 32

/-! ## Integers -/

/-- The loop of `mini_hpack_dec_int`: `m` is the shift, `v` the value and `i` the bytes so far. -/
def decIntRest : Bytes → Nat → Nat → Nat → Option (Nat × Nat)
  | [], _, _, _ => none
  | b :: bs, m, v, i =>
      let v := (v + b.toNat % 128 * 2 ^ m) % 2 ^ 64
      if b.toNat < 128 then some (v, i + 1)
      else if 63 < m + 7 then none
      else decIntRest bs (m + 7) v (i + 1)

/-- `mini_hpack_dec_int`: the value, and how many bytes it took. -/
def miniHpackDecInt (buf : Bytes) (prefixBits : Nat) : Option (Nat × Nat) :=
  match buf with
  | [] => none
  | b :: bs =>
      let mask := 2 ^ prefixBits - 1
      let v := b.toNat % 2 ^ prefixBits
      if v < mask then some (v, 1) else decIntRest bs 0 v 1

/-! ## Strings and blocks -/

/-- Why a decoder ends without a result. -/
inductive HpackStop where
  /-- -1 -/
  | bad
  /-- a byte behind the end of the buffer was read -/
  | outside
  /-- the loop was cut short -/
  | fuel
  deriving DecidableEq, Repr

/-- `hpack_dec_string`: the bytes that are copied, and `consumed`. -/
def hpackDecString (alloc : Nat → Bool) (buf : Bytes) : Except HpackStop (Bytes × Nat) :=
  match buf with
  | [] => .error .bad
  | b :: _ =>
      if 128 ≤ b.toNat then .error .bad
      else
        match miniHpackDecInt buf 7 with
        | none => .error .bad
        | some (slen, n) =>
            if buf.length < (n + slen) % 2 ^ 64 then .error .bad
            else if alloc ((slen + 1) % 2 ^ 64) = false then .error .bad
            else if buf.length < n + slen then .error .outside
            else .ok ((buf.drop n).take slen, (n + slen) % 2 ^ 64)

/-- `H2HeaderPair`, as the C strings that it holds. -/
abbrev H2HeaderPair := Bytes × Bytes

/-- The name of a literal, and what is left behind it. -/
def literalName (alloc : Nat → Bool) (idx : Nat) (rest : Bytes) :
    Except HpackStop (Bytes × Bytes) :=
  if 0 < idx then
    match miniHpackStaticName (toInt idx) with
    | none => .error .bad
    | some name => .ok (name, rest)
  else do
    let (name, cc) ← hpackDecString alloc rest
    return (cString name, rest.drop cc)

/-- `n >= max_pairs`, or one more pair. -/
def pushPair (maxPairs : Int) (out : List H2HeaderPair) (pair : H2HeaderPair) (rest : Bytes) :
    Except HpackStop (List H2HeaderPair × Bytes) :=
  if maxPairs ≤ out.length then .error .bad else .ok (out ++ [pair], rest)

/-- The loop body of `mini_hpack_decode_block`: the pairs so far, and the bytes that are left. -/
def decodeField (alloc : Nat → Bool) (maxPairs : Int) (out : List H2HeaderPair) (rest : Bytes) :
    Except HpackStop (List H2HeaderPair × Bytes) :=
  match rest with
  | [] => .ok (out, [])
  | b :: _ =>
      if 128 ≤ b.toNat then
        match miniHpackDecInt rest 7 with
        | none => .error .bad
        | some (idx, c) =>
            match miniHpackStaticName (toInt idx), miniHpackStaticValue (toInt idx) with
            | some name, val => pushPair maxPairs out (name, val.getD []) (rest.drop c)
            | none, _ => .ok (out, rest.drop c)
      else
        match miniHpackDecInt rest 6 with
        | none => .error .bad
        | some (idx, c) => do
            let (name, rest) ← literalName alloc idx (rest.drop c)
            let (val, cc) ← hpackDecString alloc rest
            pushPair maxPairs out (name, cString val) (rest.drop cc)

/-- The loop of `mini_hpack_decode_block`. -/
def decodeFields (alloc : Nat → Bool) (maxPairs : Int) :
    Nat → List H2HeaderPair → Bytes → Except HpackStop (List H2HeaderPair)
  | _, out, [] => .ok out
  | 0, _, _ :: _ => .error .fuel
  | fuel + 1, out, b :: bs => do
      let (out, rest) ← decodeField alloc maxPairs out (b :: bs)
      decodeFields alloc maxPairs fuel out rest

/-- `mini_hpack_decode_block`: the pairs that are written. -/
def miniHpackDecodeBlock (alloc : Nat → Bool) (buf : Bytes) (maxPairs : Int) :
    Except HpackStop (List H2HeaderPair) :=
  decodeFields alloc maxPairs buf.length [] buf

/-! ## What a step does -/

theorem pushPair_ok {maxPairs : Int} {out out' : List H2HeaderPair} {pair : H2HeaderPair}
    {rest rest' : Bytes} (h : pushPair maxPairs out pair rest = .ok (out', rest')) :
    out.length < maxPairs ∧ out' = out ++ [pair] ∧ rest' = rest := by
  unfold pushPair at h
  split_ifs at h with hmax
  obtain ⟨rfl, rfl⟩ := Prod.mk.inj (Except.ok.inj h)
  exact ⟨by omega, rfl, rfl⟩

/-- A field that is indexed: its index, and the entry or none. -/
structure IndexedStep (maxPairs : Int) (out : List H2HeaderPair) (rest : Bytes)
    (out' : List H2HeaderPair) (rest' : Bytes) (idx c : Nat) : Prop where
  int : miniHpackDecInt rest 7 = some (idx, c)
  left : rest' = rest.drop c
  pair : miniHpackStaticName (toInt idx) = none ∧ out' = out ∨
    ∃ pair, out.length < maxPairs ∧ out' = out ++ [pair]

/-- A literal: its index, its name and its value. -/
structure LiteralStep (alloc : Nat → Bool) (maxPairs : Int) (out : List H2HeaderPair)
    (rest : Bytes) (out' : List H2HeaderPair) (rest' : Bytes) (idx c : Nat) (name : Bytes)
    (behind : Bytes) (val : Bytes) (cc : Nat) : Prop where
  int : miniHpackDecInt rest 6 = some (idx, c)
  readName : literalName alloc idx (rest.drop c) = .ok (name, behind)
  readValue : hpackDecString alloc behind = .ok (val, cc)
  left : rest' = behind.drop cc
  room : out.length < maxPairs
  pair : out' = out ++ [(name, cString val)]

/-- All that the loop body can do. -/
theorem decodeField_ok {alloc : Nat → Bool} {maxPairs : Int} {out out' : List H2HeaderPair}
    {b : UInt8} {bs rest' : Bytes}
    (h : decodeField alloc maxPairs out (b :: bs) = .ok (out', rest')) :
    (128 ≤ b.toNat ∧ ∃ idx c, IndexedStep maxPairs out (b :: bs) out' rest' idx c) ∨
      (b.toNat < 128 ∧ ∃ idx c name behind val cc,
        LiteralStep alloc maxPairs out (b :: bs) out' rest' idx c name behind val cc) := by
  rw [decodeField] at h
  by_cases hb : 128 ≤ b.toNat
  · rw [if_pos hb] at h
    cases hint : miniHpackDecInt (b :: bs) 7 with
    | none =>
      rw [hint] at h
      cases h
    | some ic =>
      obtain ⟨idx, c⟩ := ic
      rw [hint] at h
      dsimp only at h
      refine Or.inl ⟨hb, idx, c, ?_⟩
      cases hname : miniHpackStaticName (toInt idx) with
      | none =>
        rw [hname] at h
        obtain ⟨rfl, rfl⟩ := Prod.mk.inj (Except.ok.inj h)
        exact ⟨hint, rfl, Or.inl ⟨hname, rfl⟩⟩
      | some name =>
        rw [hname] at h
        obtain ⟨hroom, hout, hrest⟩ := pushPair_ok h
        exact ⟨hint, hrest, Or.inr ⟨_, hroom, hout⟩⟩
  · rw [if_neg hb] at h
    cases hint : miniHpackDecInt (b :: bs) 6 with
    | none =>
      rw [hint] at h
      cases h
    | some ic =>
      obtain ⟨idx, c⟩ := ic
      rw [hint] at h
      simp only [bind, Except.bind] at h
      cases hname : literalName alloc idx (List.drop c (b :: bs)) with
      | error e =>
        rw [hname] at h
        cases h
      | ok nr =>
        obtain ⟨name, behind⟩ := nr
        rw [hname] at h
        dsimp only at h
        cases hval : hpackDecString alloc behind with
        | error e =>
          rw [hval] at h
          cases h
        | ok vc =>
          obtain ⟨val, cc⟩ := vc
          rw [hval] at h
          obtain ⟨hroom, hout, hrest⟩ := pushPair_ok h
          exact Or.inr
            ⟨by omega, idx, c, name, behind, val, cc, hint, hname, hval, hrest, hroom, hout⟩

/-! ## The encoding -/

/-- Seven bits a byte, the lowest first; all but the last have the top bit. -/
def septets (v : Nat) : Bytes :=
  if v < 128 then [UInt8.ofNat v] else UInt8.ofNat (v % 128 + 128) :: septets (v / 128)
termination_by v
decreasing_by omega

/-- An integer with a prefix, below the bits in `top`. -/
def hpackInt (top prefixBits v : Nat) : Bytes :=
  if v < 2 ^ prefixBits - 1 then [UInt8.ofNat (top + v)]
  else UInt8.ofNat (top + (2 ^ prefixBits - 1)) :: septets (v - (2 ^ prefixBits - 1))

/-- A string without Huffman coding. -/
def hpackString (s : Bytes) : Bytes := hpackInt 0 7 s.length ++ s

/-- An index of the static table. -/
structure StaticIndex where
  idx : Nat
  pos : 1 ≤ idx
  le : idx ≤ 61

def StaticIndex.name (k : StaticIndex) : Bytes := ascii (staticNames.getD (k.idx - 1) "")

def StaticIndex.value (k : StaticIndex) : Bytes := ascii (staticValues.getD (k.idx - 1) "")

/-- The forms of a literal. -/
inductive LiteralForm where
  | incremental | without | never
  deriving DecidableEq, Repr

/-- The bits above the index. -/
def LiteralForm.top : LiteralForm → Nat
  | .incremental => 64
  | .without => 0
  | .never => 16

/-- The bits of the index. -/
def LiteralForm.indexBits : LiteralForm → Nat
  | .incremental => 6
  | .without => 4
  | .never => 4

/-- The name of a literal. -/
inductive FieldName where
  | static (k : StaticIndex)
  | text (name : Bytes)

def FieldName.index : FieldName → Nat
  | .static k => k.idx
  | .text _ => 0

def FieldName.bytes : FieldName → Bytes
  | .static _ => []
  | .text name => hpackString name

def FieldName.name : FieldName → Bytes
  | .static k => k.name
  | .text name => name

/-- A header field in one of its forms. -/
inductive HpackField where
  | indexed (k : StaticIndex)
  | literal (form : LiteralForm) (name : FieldName) (value : Bytes)

def HpackField.bytes : HpackField → Bytes
  | .indexed k => hpackInt 128 7 k.idx
  | .literal form name value =>
      hpackInt form.top form.indexBits name.index ++ (name.bytes ++ hpackString value)

/-- The pair that a field stands for. -/
def HpackField.pair : HpackField → H2HeaderPair
  | .indexed k => (k.name, k.value)
  | .literal _ name value => (name.name, value)

/-- The block of some fields. -/
def fieldBlock (fields : List HpackField) : Bytes := fields.flatMap HpackField.bytes

/-- The decoder gives back just the fields. -/
def DecodesFields (alloc : Nat → Bool) (fields : List HpackField) : Prop :=
  ∀ maxPairs : Int, fields.length ≤ maxPairs →
    miniHpackDecodeBlock alloc (fieldBlock fields) maxPairs = .ok (fields.map HpackField.pair)

/-- The form and the name of a literal that is read as it is meant to be. -/
def ReadsIndex : LiteralForm → FieldName → Prop
  | .incremental, _ => True
  | .without, name => name.index < 15
  | .never, _ => False

/-- A field that is read as it is meant to be; the strings have no NUL. -/
def HpackField.Safe : HpackField → Prop
  | .indexed _ => True
  | .literal form name value =>
      ReadsIndex form name ∧ 0 ∉ value ∧ ∀ text, name = .text text → 0 ∉ text

/-! ## Integers and strings -/

theorem decIntRest_septets (s : Bytes) (v m acc i : Nat) (hfits : acc + v * 2 ^ m < 2 ^ 64) :
    decIntRest (septets v ++ s) m acc i = some (acc + v * 2 ^ m, i + (septets v).length) := by
  induction v using Nat.strongRecOn generalizing m acc i with
  | _ v ih =>
    rw [septets]
    by_cases hlast : v < 128
    · have hbyte : (UInt8.ofNat v).toNat = v := by
        rw [UInt8.toNat_ofNat']
        omega
      rw [if_pos hlast, List.cons_append, decIntRest, hbyte, Nat.mod_eq_of_lt hlast,
        Nat.mod_eq_of_lt hfits, if_pos hlast]
      rfl
    · have hbyte : (UInt8.ofNat (v % 128 + 128)).toNat = v % 128 + 128 := by
        rw [UInt8.toNat_ofNat']
        omega
      have hsplit : acc + v * 2 ^ m = acc + v % 128 * 2 ^ m + v / 128 * 2 ^ (m + 7) := by
        have hv : v = v % 128 + v / 128 * 128 := by omega
        calc acc + v * 2 ^ m = acc + (v % 128 + v / 128 * 128) * 2 ^ m := by rw [← hv]
          _ = acc + v % 128 * 2 ^ m + v / 128 * 2 ^ (m + 7) := by rw [pow_add]; ring
      have hmod : (v % 128 + 128) % 128 = v % 128 := by omega
      -- a byte to come means that the value reaches past the shift
      have hshift : m + 7 ≤ 63 := by
        by_contra hlt
        have hpow : 2 ^ 64 ≤ 2 ^ (m + 7) := Nat.pow_le_pow_right (by decide) (by omega)
        have hone : 1 * 2 ^ (m + 7) ≤ v / 128 * 2 ^ (m + 7) :=
          Nat.mul_le_mul_right _ (by omega)
        omega
      rw [hsplit] at hfits ⊢
      rw [if_neg hlast, List.cons_append, decIntRest, hbyte, hmod,
        Nat.mod_eq_of_lt ((Nat.le_add_right _ _).trans_lt hfits)]
      rw [if_neg (by omega), if_neg (by omega), ih (v / 128) (by omega) _ _ _ hfits,
        List.length_cons, Nat.add_assoc i 1, Nat.add_comm 1]

/-- An integer is read back with the prefix that it has. -/
theorem decInt_hpackInt (top prefixBits v : Nat)
    (htop : top % 2 ^ prefixBits = 0) (hbyte : top + 2 ^ prefixBits ≤ 256) (hv : v < 2 ^ 64)
    (s : Bytes) :
    miniHpackDecInt (hpackInt top prefixBits v ++ s) prefixBits =
      some (v, (hpackInt top prefixBits v).length) := by
  have hpow : 0 < 2 ^ prefixBits := Nat.two_pow_pos _
  have hlow : ∀ n < 2 ^ prefixBits,
      (UInt8.ofNat (top + n)).toNat % 2 ^ prefixBits = n := fun n hn => by
    rw [UInt8.toNat_ofNat', Nat.mod_eq_of_lt (show top + n < 2 ^ 8 by omega), Nat.add_mod, htop,
      Nat.zero_add, Nat.mod_mod, Nat.mod_eq_of_lt hn]
  unfold hpackInt
  by_cases hsmall : v < 2 ^ prefixBits - 1
  · rw [if_pos hsmall, List.cons_append, miniHpackDecInt, hlow v (by omega)]
    rw [if_pos hsmall]
    rfl
  · rw [if_neg hsmall, List.cons_append, miniHpackDecInt, hlow _ (by omega)]
    rw [if_neg (Nat.lt_irrefl _), decIntRest_septets s _ _ _ _ (by omega), pow_zero, Nat.mul_one,
      List.length_cons]
    congr 2
    · omega
    · exact Nat.add_comm _ _

theorem hpackInt_byte (top n v : Nat) (hbyte : top + 2 ^ n ≤ 256) (hsmall : v < 2 ^ n - 1) :
    hpackInt top n v = [UInt8.ofNat (top + v)] ∧ (UInt8.ofNat (top + v)).toNat = top + v := by
  refine ⟨if_pos hsmall, ?_⟩
  rw [UInt8.toNat_ofNat']
  omega

/-- The first byte has the bits above the prefix. -/
theorem hpackInt_head (top n v : Nat) (hbyte : top + 2 ^ n ≤ 256) (s : Bytes) :
    ∃ b bs, hpackInt top n v ++ s = b :: bs ∧ top ≤ b.toNat ∧ b.toNat < top + 2 ^ n := by
  have hpow : 0 < 2 ^ n := Nat.two_pow_pos _
  unfold hpackInt
  split_ifs with hsmall
  · refine ⟨_, _, rfl, ?_⟩
    rw [UInt8.toNat_ofNat']
    omega
  · refine ⟨_, _, rfl, ?_⟩
    rw [UInt8.toNat_ofNat']
    omega

theorem decString_hpackString {alloc : Nat → Bool} {s : Bytes}
    (hsize : (hpackString s).length < 2 ^ 64) (halloc : alloc (s.length + 1) = true) (t : Bytes) :
    hpackDecString alloc (hpackString s ++ t) = .ok (s, (hpackString s).length) := by
  have hlength : (hpackString s).length = (hpackInt 0 7 s.length).length + s.length :=
    List.length_append
  have hint := decInt_hpackInt 0 7 s.length (by omega) (by omega)
    (by omega) (s ++ t)
  have hpos : 0 < (hpackInt 0 7 s.length).length := by
    unfold hpackInt
    split_ifs
    · exact Nat.zero_lt_one
    · exact Nat.succ_pos _
  have hwhole : hpackString s ++ t = hpackInt 0 7 s.length ++ (s ++ t) := List.append_assoc _ _ _
  obtain ⟨b, bs, hb, -, hlow⟩ :=
    hpackInt_head 0 7 s.length (by omega) (s ++ t)
  have hfits : (hpackInt 0 7 s.length).length + s.length ≤
      (hpackInt 0 7 s.length ++ (s ++ t)).length := by
    rw [List.length_append, List.length_append]
    omega
  rw [hlength] at hsize ⊢
  rw [hwhole, hb, hpackDecString, if_neg (by omega), ← hb, hint]
  dsimp only
  rw [Nat.mod_eq_of_lt hsize, Nat.mod_eq_of_lt (show s.length + 1 < 2 ^ 64 by omega), halloc,
    if_neg (Nat.not_lt_of_le hfits), if_neg (by simp), if_neg (Nat.not_lt_of_le hfits),
    List.drop_left' rfl, List.take_left' rfl]

/-! ## Fields -/

/-- What memory has to be there for a block, and that its length is a `size_t`. -/
structure Roomy (alloc : Nat → Bool) (size : Nat) : Prop where
  alloc : ∀ n ≤ size, alloc n = true
  size : size < 2 ^ 64

theorem Roomy.mono {alloc : Nat → Bool} {m n : Nat} (h : Roomy alloc n) (hle : m ≤ n) :
    Roomy alloc m :=
  ⟨fun k hk => h.alloc k (hk.trans hle), hle.trans_lt h.size⟩

theorem length_hpackString (s : Bytes) : s.length + 1 ≤ (hpackString s).length := by
  have hpos : 0 < (hpackInt 0 7 s.length).length := by
    unfold hpackInt
    split_ifs
    · exact Nat.zero_lt_one
    · exact Nat.succ_pos _
  rw [hpackString, List.length_append]
  omega

theorem Roomy.decString {alloc : Nat → Bool} {s : Bytes} (h : Roomy alloc (hpackString s).length)
    (t : Bytes) :
    hpackDecString alloc (hpackString s ++ t) = .ok (s, (hpackString s).length) :=
  decString_hpackString h.size (h.alloc _ (length_hpackString s)) t

theorem toInt_of_lt {idx : Nat} (h : idx < 2 ^ 31) : toInt idx = idx := by
  unfold toInt
  rw [Nat.mod_eq_of_lt (h.trans (by decide)), if_pos h]

theorem staticName_idx (k : StaticIndex) : miniHpackStaticName (toInt k.idx) = some k.name := by
  have hpos := k.pos
  have hle := k.le
  rw [toInt_of_lt (by omega), miniHpackStaticName, if_pos (by omega)]
  rfl

theorem staticValue_idx (k : StaticIndex) : miniHpackStaticValue (toInt k.idx) = some k.value := by
  have hpos := k.pos
  have hle := k.le
  rw [toInt_of_lt (by omega), miniHpackStaticValue, if_pos (by omega)]
  rfl

theorem decodeField_indexed (alloc : Nat → Bool) (maxPairs : Int) (out : List H2HeaderPair)
    (k : StaticIndex) (t : Bytes) :
    decodeField alloc maxPairs out (hpackInt 128 7 k.idx ++ t) =
      pushPair maxPairs out (k.name, k.value) t := by
  have hle := k.le
  obtain ⟨b, bs, hb, htop, -⟩ := hpackInt_head 128 7 k.idx (by omega) t
  have hint := decInt_hpackInt 128 7 k.idx (by omega) (by omega)
    (by omega) t
  rw [hb] at hint ⊢
  rw [decodeField, if_pos htop, hint]
  dsimp only
  rw [staticName_idx, staticValue_idx, ← hb]
  dsimp only
  rw [List.drop_left' rfl]
  rfl

/-- The index of a literal that is read as it is meant to be. -/
theorem ReadsIndex.decInt {form : LiteralForm} {name : FieldName} (h : ReadsIndex form name)
    (s : Bytes) :
    ∃ b bs, hpackInt form.top form.indexBits name.index ++ s = b :: bs ∧ b.toNat < 128 ∧
      miniHpackDecInt (b :: bs) 6 =
        some (name.index, (hpackInt form.top form.indexBits name.index).length) := by
  have hle : name.index ≤ 61 := by
    cases name with
    | static k => exact k.le
    | text name => exact Nat.zero_le _
  cases form with
  | incremental =>
    obtain ⟨b, bs, hb, -, hlow⟩ :=
      hpackInt_head 64 6 name.index (by omega) s
    refine ⟨b, bs, hb, by omega, ?_⟩
    rw [← hb]
    exact decInt_hpackInt _ _ _ (by omega) (by omega) (by omega) s
  | without =>
    have hsmall : name.index < 15 := h
    obtain ⟨hbytes, hbyte⟩ := hpackInt_byte 0 4 name.index (by omega)
      (by omega)
    rw [Nat.zero_add] at hbytes hbyte
    refine ⟨UInt8.ofNat name.index, s, ?_, by omega, ?_⟩
    · exact congrArg (· ++ s) hbytes
    · have hone : (hpackInt 0 4 name.index).length = 1 := by
        rw [hbytes]
        rfl
      show miniHpackDecInt _ 6 = some (name.index, (hpackInt 0 4 name.index).length)
      rw [hone, miniHpackDecInt, hbyte, Nat.mod_eq_of_lt (show name.index < 2 ^ 6 by omega),
        if_pos (by omega)]
  | never => exact h.elim

/-- The name that is handed out: a C string. -/
def FieldName.read : FieldName → Bytes
  | .static k => k.name
  | .text name => cString name

theorem FieldName.literalName_eq {alloc : Nat → Bool} {name : FieldName}
    (hroomy : Roomy alloc name.bytes.length) (t : Bytes) :
    literalName alloc name.index (name.bytes ++ t) = .ok (name.read, t) := by
  cases name with
  | static k =>
    have hpos := k.pos
    rw [literalName, FieldName.index, if_pos (by omega), staticName_idx]
    rfl
  | text text =>
    rw [literalName, FieldName.index, if_neg (Nat.lt_irrefl 0), FieldName.bytes,
      Roomy.decString hroomy t]
    simp [bind, Except.bind, pure, Except.pure, List.drop_left' rfl, FieldName.read]

/-- A literal whose index is read as it is meant to be is read up to the NULs in it. -/
theorem decodeField_literal {alloc : Nat → Bool} {form : LiteralForm} {name : FieldName}
    {value : Bytes} (hroomy : Roomy alloc (HpackField.literal form name value).bytes.length)
    (hreads : ReadsIndex form name) (maxPairs : Int) (out : List H2HeaderPair) (t : Bytes) :
    decodeField alloc maxPairs out ((HpackField.literal form name value).bytes ++ t) =
      pushPair maxPairs out (name.read, cString value) t := by
  obtain ⟨b, bs, hb, hlow, hint⟩ := hreads.decInt (name.bytes ++ (hpackString value ++ t))
  have hlength : (HpackField.literal form name value).bytes.length =
      (hpackInt form.top form.indexBits name.index).length +
        (name.bytes.length + (hpackString value).length) := by
    rw [HpackField.bytes, List.length_append, List.length_append]
  have hwhole : (HpackField.literal form name value).bytes ++ t =
      hpackInt form.top form.indexBits name.index ++ (name.bytes ++ (hpackString value ++ t)) := by
    rw [HpackField.bytes, List.append_assoc, List.append_assoc]
  rw [hlength] at hroomy
  rw [hwhole, hb, decodeField, if_neg (by omega), hint]
  dsimp only
  rw [← hb, List.drop_left' rfl, FieldName.literalName_eq (hroomy.mono (by omega))]
  simp only [bind, Except.bind]
  rw [Roomy.decString (hroomy.mono (by omega))]
  dsimp only
  rw [List.drop_left' rfl]

theorem decodeField_safe {alloc : Nat → Bool} {f : HpackField} (hsafe : f.Safe)
    (hroomy : Roomy alloc f.bytes.length) (maxPairs : Int) (out : List H2HeaderPair) (t : Bytes) :
    decodeField alloc maxPairs out (f.bytes ++ t) = pushPair maxPairs out f.pair t := by
  cases f with
  | indexed k => exact decodeField_indexed alloc maxPairs out k t
  | literal form name value =>
    obtain ⟨hreads, hvalue, hname⟩ := hsafe
    have hread : name.read = name.name := by
      cases name with
      | static k => rfl
      | text text => exact cString_eq_self_iff.2 (hname text rfl)
    rw [decodeField_literal hroomy hreads, cString_eq_self_iff.2 hvalue, hread]
    rfl

/-! ## Blocks -/

theorem HpackField.bytes_ne_nil (f : HpackField) : f.bytes ≠ [] := by
  have hint : ∀ top n v, hpackInt top n v ≠ [] := fun top n v => by
    unfold hpackInt
    split_ifs
    · exact List.cons_ne_nil _ _
    · exact List.cons_ne_nil _ _
  cases f with
  | indexed k => exact hint 128 7 k.idx
  | literal form name value =>
    exact fun h => hint _ _ _ (List.append_eq_nil_iff.1 h).1

theorem decodeFields_step (alloc : Nat → Bool) (maxPairs : Int) (fuel : Nat)
    (out : List H2HeaderPair) {rest : Bytes} (hne : rest ≠ []) :
    decodeFields alloc maxPairs (fuel + 1) out rest =
      (decodeField alloc maxPairs out rest).bind fun r =>
        decodeFields alloc maxPairs fuel r.1 r.2 := by
  cases rest with
  | nil => exact absurd rfl hne
  | cons b bs => rfl

theorem decodeFields_nil (alloc : Nat → Bool) (maxPairs : Int) (fuel : Nat)
    (out : List H2HeaderPair) : decodeFields alloc maxPairs fuel out [] = .ok out := by
  cases fuel <;> rfl

/-- Safe fields are given back one after the other. -/
theorem decodeFields_safe {alloc : Nat → Bool} {maxPairs : Int} {fields : List HpackField}
    (hsafe : ∀ f ∈ fields, f.Safe) (hroomy : Roomy alloc (fieldBlock fields).length) {fuel : Nat}
    (hfuel : (fieldBlock fields).length ≤ fuel) (out : List H2HeaderPair)
    (hmax : (out.length + fields.length : Int) ≤ maxPairs) :
    decodeFields alloc maxPairs fuel out (fieldBlock fields) =
      .ok (out ++ fields.map HpackField.pair) := by
  induction fields generalizing fuel out with
  | nil =>
    rw [List.map_nil, List.append_nil]
    exact decodeFields_nil alloc maxPairs fuel out
  | cons f fields ih =>
    have hblock : fieldBlock (f :: fields) = f.bytes ++ fieldBlock fields := rfl
    have hpos := List.length_pos_iff.2 f.bytes_ne_nil
    rw [hblock, List.length_append] at hroomy hfuel
    rw [List.length_cons] at hmax
    obtain ⟨fuel, rfl⟩ := Nat.exists_eq_succ_of_ne_zero (show fuel ≠ 0 by omega)
    rw [hblock, decodeFields_step alloc maxPairs fuel out
        (fun h => f.bytes_ne_nil (List.append_eq_nil_iff.1 h).1),
      decodeField_safe (hsafe f List.mem_cons_self) (hroomy.mono (by omega)), pushPair,
      if_neg (by omega)]
    show decodeFields alloc maxPairs fuel (out ++ [f.pair]) (fieldBlock fields) = _
    rw [ih (fun g hg => hsafe g (List.mem_cons_of_mem f hg)) (hroomy.mono (by omega)) (by omega)
        (out ++ [f.pair]) (by rw [List.length_append, List.length_singleton]; omega),
      List.append_assoc]
    rfl

/-! ## Fields that are not safe -/

/-- When all the pairs are there only indexes that mean nothing can follow. -/
theorem decodeFields_full {alloc : Nat → Bool} {fuel : Nat} {p : H2HeaderPair} {rest : Bytes}
    {out : List H2HeaderPair} (h : decodeFields alloc 1 fuel [p] rest = .ok out) :
    out = [p] ∧ ∀ b ∈ rest.head?, 128 ≤ b.toNat := by
  induction fuel generalizing rest with
  | zero =>
    cases rest with
    | nil => exact ⟨(Except.ok.inj h).symm, fun b hb => nomatch hb⟩
    | cons b bs => cases h
  | succ fuel ih =>
    cases rest with
    | nil => exact ⟨(Except.ok.inj h).symm, fun b hb => nomatch hb⟩
    | cons b bs =>
      rw [decodeFields_step alloc 1 fuel [p] (List.cons_ne_nil b bs)] at h
      cases hstep : decodeField alloc 1 [p] (b :: bs) with
      | error e =>
        rw [hstep] at h
        cases h
      | ok r =>
        obtain ⟨out', rest'⟩ := r
        rw [hstep] at h
        rcases decodeField_ok hstep with ⟨hb, idx, c, hindexed⟩ | ⟨-, _, _, _, _, _, _, hliteral⟩
        · rcases hindexed.pair with ⟨-, rfl⟩ | ⟨pair, hroom, -⟩
          · exact ⟨(ih h).1, fun b' hb' => Option.some.inj hb' ▸ hb⟩
          · exact absurd hroom (by simp)
        · exact absurd hliteral.room (by simp)

/-- The only pair of a block that begins with a literal of a small index. -/
theorem single_literal {alloc : Nat → Bool} {fuel : Nat} {b : UInt8} {rest : Bytes}
    {p : H2HeaderPair} (hlow : b.toNat < 63) (hpos : 0 < b.toNat) (hle : b.toNat ≤ 61)
    (h : decodeFields alloc 1 fuel [] (b :: rest) = .ok [p]) :
    ∃ val cc, hpackDecString alloc rest = .ok (val, cc) ∧
      p = (ascii (staticNames.getD (b.toNat - 1) ""), cString val) ∧
      ∀ b' ∈ (rest.drop cc).head?, 128 ≤ b'.toNat := by
  have hint : miniHpackDecInt (b :: rest) 6 = some (b.toNat, 1) := by
    rw [miniHpackDecInt, Nat.mod_eq_of_lt (show b.toNat < 2 ^ 6 by omega), if_pos (by omega)]
  have hname : literalName alloc b.toNat rest =
      .ok (ascii (staticNames.getD (b.toNat - 1) ""), rest) := by
    rw [literalName, if_pos hpos, staticName_idx ⟨b.toNat, hpos, hle⟩]
    rfl
  cases fuel with
  | zero => cases h
  | succ fuel =>
    rw [decodeFields_step alloc 1 fuel [] (List.cons_ne_nil b rest)] at h
    cases hstep : decodeField alloc 1 [] (b :: rest) with
    | error e =>
      rw [hstep] at h
      cases h
    | ok r =>
      obtain ⟨out', rest'⟩ := r
      rw [hstep] at h
      rcases decodeField_ok hstep with ⟨hb, -⟩ | ⟨-, idx, c, name, behind, val, cc, hliteral⟩
      · omega
      · obtain ⟨rfl, rfl⟩ := Prod.mk.inj (Option.some.inj (hint.symm.trans hliteral.int))
        obtain ⟨rfl, rfl⟩ := Prod.mk.inj (Except.ok.inj (hname.symm.trans hliteral.readName))
        rw [hliteral.pair, hliteral.left] at h
        obtain ⟨hone, hhead⟩ := decodeFields_full h
        exact ⟨val, cc, hliteral.readValue, List.singleton_inj.1 hone, hhead⟩

theorem hpackString_head (s t : Bytes) : ∃ b bs, hpackString s ++ t = b :: bs ∧ b.toNat < 128 := by
  obtain ⟨b, bs, hb, -, hlow⟩ :=
    hpackInt_head 0 7 s.length (by omega) (s ++ t)
  exact ⟨b, bs, by rw [hpackString, List.append_assoc, hb], by omega⟩

/-- A string that begins with a byte for its length. -/
theorem decString_byte {alloc : Nat → Bool} {b : UInt8} {bs val : Bytes} {cc : Nat}
    (hb : b.toNat < 127) (h : hpackDecString alloc (b :: bs) = .ok (val, cc)) :
    b.toNat ≤ bs.length ∧ val = bs.take b.toNat ∧ cc = 1 + b.toNat := by
  have hint : miniHpackDecInt (b :: bs) 7 = some (b.toNat, 1) := by
    rw [miniHpackDecInt, Nat.mod_eq_of_lt (show b.toNat < 2 ^ 7 by omega), if_pos (by omega)]
  have hmod : (1 + b.toNat) % 2 ^ 64 = 1 + b.toNat := Nat.mod_eq_of_lt (by omega)
  rw [hpackDecString, if_neg (by omega), hint] at h
  dsimp only at h
  rw [hmod] at h
  split_ifs at h with hshort hmem
  obtain ⟨rfl, rfl⟩ := Prod.mk.inj (Except.ok.inj h)
  rw [List.length_cons] at hshort
  exact ⟨by omega, rfl, rfl⟩

/-- The names from the fifteenth on are all different, and none is one of those before. -/
theorem staticNames_inj {i j : Nat} (hi : i < 61) (hj : j < 61) (hj14 : 14 ≤ j)
    (h : ascii (staticNames.getD i "") = ascii (staticNames.getD j "")) : i = j := by
  have hall : ∀ j < 61, 14 ≤ j → ∀ i < 61,
      ascii (staticNames.getD i "") = ascii (staticNames.getD j "") → i = j := by decide +kernel
  exact hall j hj hj14 i hi h

/-- A value that is a piece of its own encoding: its length goes round in it. -/
theorem value_of_own_bytes {value : Bytes} (hlength : 16 ≤ (hpackString value).length)
    (hvalue : value = cString ((hpackString value).take 16)) :
    ∃ b ∈ ((hpackString value).drop 16).head?, b.toNat < 128 := by
  have hclean : 0 ∉ value := by
    rw [hvalue]
    intro h0
    have hnonzero := List.mem_takeWhile_imp h0
    simp at hnonzero
  have hle : value.length ≤ 16 := by
    rw [hvalue]
    exact (List.takeWhile_sublist _).length_le.trans (List.length_take_le _ _)
  obtain ⟨hint, hbyte⟩ :=
    hpackInt_byte 0 7 value.length (by omega) (by omega)
  rw [Nat.zero_add] at hint hbyte
  have hown : hpackString value = UInt8.ofNat value.length :: value := by
    rw [hpackString, hint]
    rfl
  generalize UInt8.ofNat value.length = b at hbyte hown
  rw [hown, List.length_cons] at hlength
  have hne : b ≠ 0 := by
    rintro rfl
    have hzero : (0 : UInt8).toNat = 0 := rfl
    omega
  have hown' : 0 ∉ b :: value.take 15 := by
    rw [List.mem_cons]
    rintro (h0 | h0)
    · exact hne h0.symm
    · exact hclean (List.mem_of_mem_take h0)
  rw [hown, List.take_succ_cons, cString_eq_self_iff.2 hown'] at hvalue
  have hsixteen : value.length = 16 := by
    have hcount := congrArg List.length hvalue
    rw [List.length_cons, List.length_take] at hcount
    omega
  -- every byte is the one in front of it, and the first is the length
  have hall : ∀ i < 16, value[i]? = some b := by
    intro i hi
    induction i with
    | zero =>
      rw [hvalue]
      rfl
    | succ i ih =>
      have hback : value[i + 1]? = value[i]? := by
        conv_lhs => rw [hvalue]
        rw [List.getElem?_cons_succ, List.getElem?_take_of_lt (by omega)]
      rw [hback, ih (by omega)]
  refine ⟨b, ?_, by omega⟩
  rw [hown, List.drop_succ_cons, List.head?_drop]
  exact hall 15 (by omega)

/-- An index of 15 and more behind four bits takes a byte of its own. -/
theorem hpackInt_four {top idx : Nat} (hbig : 15 ≤ idx) (hle : idx ≤ 61) :
    hpackInt top 4 idx = [UInt8.ofNat (top + 15), UInt8.ofNat (idx - 15)] := by
  unfold hpackInt
  rw [if_neg (by omega), septets, if_pos (by omega)]
  rfl

/-- A literal whose index is not read as it is meant to be is not read right. -/
theorem not_decodes_of_not_readsIndex {alloc : Nat → Bool} {form : LiteralForm} {name : FieldName}
    {value : Bytes} (hroomy : Roomy alloc (HpackField.literal form name value).bytes.length)
    (hreads : ¬ ReadsIndex form name) {fuel : Nat} :
    decodeFields alloc 1 fuel [] (HpackField.literal form name value).bytes ≠
      .ok [(name.name, value)] := by
  intro h
  obtain ⟨b', bs', hhead', hlow'⟩ := hpackString_head value []
  rw [List.append_nil] at hhead'
  cases form with
  | incremental => exact hreads trivial
  | without =>
    cases name with
    | text text => exact hreads (by decide : (0 : Nat) < 15)
    | static k =>
      have hbig : 15 ≤ k.idx := Nat.le_of_not_lt hreads
      have hle := k.le
      have hbytes : (HpackField.literal .without (.static k) value).bytes =
          UInt8.ofNat 15 :: (UInt8.ofNat (k.idx - 15) :: hpackString value) := by
        show hpackInt 0 4 k.idx ++ ([] ++ hpackString value) = _
        rw [hpackInt_four hbig hle]
        rfl
      rw [hbytes] at h
      obtain ⟨val, cc, hval, hpair, hrest⟩ := single_literal (by decide) (by decide) (by decide) h
      -- the index is read as 15, and what is added to it as the length of the value
      have hidx : k.idx - 1 = 14 :=
        staticNames_inj (by omega) (by omega) (by omega) (Prod.mk.inj hpair).1
      have hzero : k.idx - 15 = 0 := by omega
      rw [hzero] at hval hrest
      obtain ⟨-, -, hcc⟩ := decString_byte (by decide) hval
      rw [hcc] at hrest
      have hlast := hrest b' (by
        show b' ∈ (hpackString value).head?
        rw [hhead']
        rfl)
      omega
  | never =>
    cases name with
    | text text =>
      have hbytes : (HpackField.literal .never (.text text) value).bytes =
          UInt8.ofNat 16 :: (hpackString text ++ hpackString value) := rfl
      rw [hbytes] at h hroomy
      rw [List.length_cons, List.length_append] at hroomy
      obtain ⟨val, cc, hval, hpair, hrest⟩ := single_literal (by decide) (by decide) (by decide) h
      -- the name is read as the value, and the value is left over
      have hname := Roomy.decString (s := text) (hroomy.mono (by omega)) (hpackString value)
      obtain ⟨rfl, rfl⟩ := Prod.mk.inj (Except.ok.inj (hname.symm.trans hval))
      rw [List.drop_left' rfl, hhead'] at hrest
      have hlast := hrest b' rfl
      omega
    | static k =>
      have hle := k.le
      have hpos := k.pos
      rcases Nat.lt_or_ge k.idx 15 with hsmall | hbig
      · obtain ⟨hint, hbyte⟩ :=
          hpackInt_byte 16 4 k.idx (by omega) (by omega)
        have hbytes : (HpackField.literal .never (.static k) value).bytes =
            UInt8.ofNat (16 + k.idx) :: hpackString value := by
          show hpackInt 16 4 k.idx ++ ([] ++ hpackString value) = _
          rw [hint]
          rfl
        rw [hbytes] at h
        obtain ⟨val, cc, -, hpair, -⟩ :=
          single_literal (by omega) (by omega) (by omega) h
        rw [hbyte] at hpair
        have hidx : k.idx - 1 = 16 + k.idx - 1 :=
          staticNames_inj (by omega) (by omega) (by omega) (Prod.mk.inj hpair).1
        omega
      · have hbytes : (HpackField.literal .never (.static k) value).bytes =
            UInt8.ofNat 31 :: (UInt8.ofNat (k.idx - 15) :: hpackString value) := by
          show hpackInt 16 4 k.idx ++ ([] ++ hpackString value) = _
          rw [hpackInt_four hbig hle]
          rfl
        rw [hbytes] at h
        obtain ⟨val, cc, hval, hpair, hrest⟩ := single_literal (by decide) (by decide) (by decide) h
        obtain ⟨hname, hvalue⟩ := Prod.mk.inj hpair
        have hidx : k.idx - 1 = 30 := staticNames_inj (by omega) (by omega) (by omega) hname
        have hsixteen : k.idx - 15 = 16 := by omega
        rw [hsixteen] at hval hrest
        obtain ⟨hlength, hown, hcc⟩ := decString_byte (by decide) hval
        rw [hown] at hvalue
        obtain ⟨b, hb, hlow⟩ := value_of_own_bytes hlength hvalue
        rw [hcc] at hrest
        have hlast := hrest b hb
        omega

/-! ## Lists of fields -/

theorem fieldBlock_singleton (f : HpackField) : fieldBlock [f] = f.bytes := by
  simp [fieldBlock]

theorem decodes_of_safe {alloc : Nat → Bool} {fields : List HpackField}
    (hroomy : Roomy alloc (fieldBlock fields).length) (hsafe : ∀ f ∈ fields, f.Safe) :
    DecodesFields alloc fields := by
  intro maxPairs hmax
  have hdecode := decodeFields_safe hsafe hroomy (le_refl _) [] (by simpa using hmax)
  rwa [List.nil_append] at hdecode

/-- A field alone is given back exactly if it is safe. -/
theorem decodes_single_iff {alloc : Nat → Bool} {f : HpackField}
    (hroomy : Roomy alloc f.bytes.length) : DecodesFields alloc [f] ↔ f.Safe := by
  constructor
  · intro h
    cases f with
    | indexed k => trivial
    | literal form name value =>
      have hone := h 1 (le_refl _)
      rw [fieldBlock_singleton, miniHpackDecodeBlock] at hone
      by_cases hreads : ReadsIndex form name
      · have hlength := List.length_pos_iff.2 (HpackField.literal form name value).bytes_ne_nil
        have hfield := decodeField_literal hroomy hreads 1 [] []
        rw [List.append_nil] at hfield
        obtain ⟨n, hn⟩ := Nat.exists_eq_succ_of_ne_zero hlength.ne'
        rw [hn, decodeFields_step alloc 1 n [] (HpackField.bytes_ne_nil _), hfield] at hone
        have hpair : [(name.read, cString value)] = [(name.name, value)] := by
          have hnil := decodeFields_nil alloc 1 n [(name.read, cString value)]
          exact Except.ok.inj (hnil.symm.trans hone)
        obtain ⟨hname, hvalue⟩ := Prod.mk.inj (List.singleton_inj.1 hpair)
        refine ⟨hreads, cString_eq_self_iff.1 hvalue, fun text htext => ?_⟩
        rw [htext] at hname
        exact cString_eq_self_iff.1 hname
      · exact absurd hone (not_decodes_of_not_readsIndex hroomy hreads)
  · intro hsafe
    refine decodes_of_safe (by rwa [fieldBlock_singleton]) fun g hg => ?_
    rw [List.mem_singleton.1 hg]
    exact hsafe

theorem length_bytes_le {f : HpackField} {fields : List HpackField} (hf : f ∈ fields) :
    f.bytes.length ≤ (fieldBlock fields).length := by
  obtain ⟨before, after, rfl⟩ := List.append_of_mem hf
  simp [fieldBlock]
  omega

/-- Fields are given back together and each alone exactly if each is safe. -/
theorem decodes_iff {alloc : Nat → Bool} {fields : List HpackField}
    (hroomy : Roomy alloc (fieldBlock fields).length) :
    (DecodesFields alloc fields ∧ ∀ f ∈ fields, DecodesFields alloc [f]) ↔
      ∀ f ∈ fields, f.Safe := by
  constructor
  · rintro ⟨-, hsingle⟩ f hf
    exact (decodes_single_iff (hroomy.mono (length_bytes_le hf))).1 (hsingle f hf)
  · intro hsafe
    exact ⟨decodes_of_safe hroomy hsafe, fun f hf =>
      (decodes_single_iff (hroomy.mono (length_bytes_le hf))).2 (hsafe f hf)⟩

end TinyFramework.Net
