import Icubaby.Output.Chain
import Icubaby.Transcoder.Laws

/-!
# The test program `iconv.cpp`

The program converts all code points, except for the byte order mark, with `iconv` and with a
transcoder, and compares the results. The library is a parameter here: `Library.Documented` says
what is known of it for well-formed input. It converts code point by code point, and it stops with
`E2BIG` in front of the first one that does not fit into the output buffer.

`convert` starts with a buffer for one unit per code point, and adds half of its size whenever
`iconv` stops. Half of one is nothing: a single code point that needs more than one unit is never
converted, and the program does not come to an end. `iconv_check` says that this is the only
exception, whatever list of code points is taken in place of the list of all of them.
-/

namespace Icubaby

namespace Iconv

/-- `errno` -/
inductive Errno
  | e2big
  | einval
  | other (code : ℕ)
  deriving DecidableEq, Repr

/-- What ends the program early. -/
inductive Failure
  /-- An `assert` of the program. -/
  | assertion
  /-- `std::system_error` -/
  | system (errno : Errno)
  /-- `iconv_unsupported_conversion` -/
  | unsupportedConversion
  /-- The loop takes more turns than are allowed. -/
  | outOfFuel
  deriving DecidableEq, Repr

/-- What a call of `iconv` leaves and writes; `error` is the value of `errno` if it returns -1. -/
structure Conversion (T : CharType) where
  inbuf : List UInt32
  written : List T.Unit
  error : Option Errno

/-- The functions of the library, for a conversion from UTF-32. A call of `iconv` is given the input
that is left and the number of bytes that are left in the output buffer. -/
structure Library (T : CharType) where
  iconvOpen : Option Errno
  iconv : List UInt32 → ℕ → Conversion T
  iconvClose : Option Errno

/-! ### The program -/

/-- `sizeof (ToEncoding)` -/
def sizeof : CharType → ℕ
  | .char8 => 1
  | .char16 => 2
  | .char32 => 4

/-- The value that `std::vector::resize` adds. -/
def zero : (T : CharType) → T.Unit
  | .char8 => 0
  | .char16 => 0
  | .char32 => 0

variable {T : CharType}

/-- `std::vector::resize` -/
def resize (v : List T.Unit) (n : ℕ) : List T.Unit :=
  v.take n ++ List.replicate (n - v.length) (zero T)

/-- Units are stored from a position on. -/
def store (v : List T.Unit) (pos : ℕ) (us : List T.Unit) : List T.Unit :=
  v.take pos ++ (us ++ v.drop (pos + us.length))

/-- The variables of the loop in `iconv_converter::convert`. -/
structure Buffers (T : CharType) where
  out : List T.Unit
  totalOutBytes : ℕ
  inbuf : List UInt32

/-- The body of the loop in `iconv_converter::convert`. -/
def turn (lib : Library T) (b : Buffers T) : Except Failure (Buffers T) :=
  let outSize := b.out.length
  let outBytesAvailable := sizeof T * outSize - b.totalOutBytes
  let r := lib.iconv b.inbuf outBytesAvailable
  let out := store b.out (b.totalOutBytes / sizeof T) r.written
  let outBytesLeft := outBytesAvailable - sizeof T * r.written.length
  let totalOutBytes := b.totalOutBytes + (outBytesAvailable - outBytesLeft)
  match r.error with
  | none => .ok ⟨out, totalOutBytes, r.inbuf⟩
  | some .e2big =>
    -- the buffer grows by 50%
    .ok ⟨resize out (outSize + outSize / 2), totalOutBytes, r.inbuf⟩
  | some errno => .error (.system errno)

/-- `while (in_bytes_left > 0)`: `fuel` bounds the number of turns. -/
def loop (lib : Library T) : ℕ → Buffers T → Except Failure (Buffers T)
  | 0, b => if b.inbuf = [] then .ok b else .error .outOfFuel
  | fuel + 1, b => if b.inbuf = [] then .ok b else turn lib b >>= loop lib fuel

/-- `iconv_converter::convert` -/
def convert (fuel : ℕ) (lib : Library T) (input : List UInt32) : Except Failure (List T.Unit) := do
  let b ← loop lib fuel ⟨resize [] input.length, 0, input⟩
  if b.totalOutBytes % sizeof T = 0 then return resize b.out (b.totalOutBytes / sizeof T)
  else throw .assertion

/-- `convert_using_iconv` -/
def convertUsingIconv (fuel : ℕ) (lib : Library T) (input : List UInt32) :
    Except Failure (List T.Unit) :=
  match lib.iconvOpen with
  | some .einval => .error .unsupportedConversion
  | some errno => .error (.system errno)
  | none => do
    let result ← convert fuel lib input
    match lib.iconvClose with
    | some errno => throw (.system errno)
    | none => return result

/-- `convert_using_icubaby` -/
def convertUsingIcubaby (T : CharType) (input : List UInt32) : Except Failure (List T.Unit) :=
  let r := Output.copyThrough (transcoder .char32 T) (transcoder .char32 T).init input
  if (transcoder .char32 T).wellFormed r.1 then .ok r.2 else .error .assertion

/-- U+FEFF BYTE ORDER MARK -/
def byteOrderMark : Char := '\uFEFF'

/-- `all_code_points`, for the code points `cps` in place of all of them. -/
def allCodePoints (cps : List UInt32) : List UInt32 :=
  cps.filter fun cp => ¬ IsSurrogate cp.toNat ∧ cp ≠ byteOrderMark.val

/-- `check` -/
def check (fuel : ℕ) (lib : Library T) (all : List UInt32) : Except Failure Bool :=
  let compared : Except Failure Bool := do
    let babyOut ← convertUsingIcubaby T all
    let iconvOut ← convertUsingIconv fuel lib all
    return iconvOut = babyOut
  match compared with
  | .error .unsupportedConversion => .ok true
  | r => r

/-! ### What is known of the library -/

/-- The documented behaviour for well-formed input without byte order marks: `iconv` converts as
many code points as fit, and reports `E2BIG` if there are more. -/
structure Library.Documented (lib : Library T) : Prop where
  opens : lib.iconvOpen = none
  closes : lib.iconvClose = none
  converts {cs : List Char} (room : ℕ) : byteOrderMark ∉ cs → ∃ done rest, cs = done ++ rest ∧
    lib.iconv (CharType.char32.code.encode cs) room =
      ⟨CharType.char32.code.encode rest, T.code.encode done,
        if rest = [] then none else some .e2big⟩ ∧
    sizeof T * (T.code.encode done).length ≤ room ∧
    ∀ c ∈ rest.head?, room < sizeof T * (T.code.encode (done ++ [c])).length

/-- One code point after the other, as long as there is room. -/
def greedyIconv : List UInt32 → ℕ → Conversion T
  | [], _ => ⟨[], [], none⟩
  | u :: us, room =>
    let word := T.code.word (Char.ofNat u.toNat)
    if sizeof T * word.length ≤ room then
      let r := greedyIconv us (room - sizeof T * word.length)
      ⟨r.inbuf, word ++ r.written, r.error⟩
    else ⟨u :: us, [], some .e2big⟩

/-- A library that does what is documented. -/
def Library.greedy (T : CharType) : Library T where
  iconvOpen := none
  iconv := greedyIconv
  iconvClose := none

theorem greedyIconv_cons (c : Char) (us : List UInt32) (room : ℕ) :
    greedyIconv (T := T) (c.val :: us) room =
      if sizeof T * (T.code.word c).length ≤ room then
        let r := greedyIconv us (room - sizeof T * (T.code.word c).length)
        ⟨r.inbuf, T.code.word c ++ r.written, r.error⟩
      else ⟨c.val :: us, [], some .e2big⟩ := by
  rw [greedyIconv, Char.toNat_val, Char.ofNat_toNat]

theorem Library.documented_greedy (T : CharType) : (Library.greedy T).Documented where
  opens := rfl
  closes := rfl
  converts {cs} room hmark := by
    clear hmark
    induction cs generalizing room with
    | nil => exact ⟨[], [], rfl, rfl, Nat.zero_le _, fun c hc => by cases hc⟩
    | cons c cs ih =>
      have hcall := greedyIconv_cons (T := T) c (CharType.char32.code.encode cs) room
      by_cases hfits : sizeof T * (T.code.word c).length ≤ room
      · obtain ⟨done, rest, rfl, hrest, hdone, hnext⟩ :=
          ih (room - sizeof T * (T.code.word c).length)
        have hgreedy : greedyIconv (T := T) (CharType.char32.code.encode (done ++ rest))
            (room - sizeof T * (T.code.word c).length) = _ := hrest
        rw [if_pos hfits, hgreedy] at hcall
        refine ⟨c :: done, rest, rfl, hcall, ?_, fun d hd => ?_⟩
        · rw [PrefixCode.encode_cons, List.length_append, Nat.mul_add]
          omega
        · have hlt := hnext d hd
          rw [List.cons_append, PrefixCode.encode_cons, List.length_append, Nat.mul_add]
          omega
      · rw [if_neg hfits] at hcall
        refine ⟨[], c :: cs, rfl, hcall, Nat.zero_le _, fun d hd => ?_⟩
        obtain rfl : c = d := Option.some.inj hd
        rw [List.nil_append, PrefixCode.encode_cons, PrefixCode.encode_nil, List.append_nil]
        omega

theorem sizeof_pos (T : CharType) : 0 < sizeof T := by
  cases T <;> decide

/-! ### The loop -/

/-- The code points `done` have been converted, and `rest` are left. -/
structure Buffers.Holds (b : Buffers T) (done rest : List Char) : Prop where
  inbuf : b.inbuf = CharType.char32.code.encode rest
  total : b.totalOutBytes = sizeof T * (T.code.encode done).length
  out : T.code.encode done <+: b.out

/-- Storing behind what has been converted. -/
theorem store_append (us vs tail : List T.Unit) :
    store (us ++ tail) us.length vs = us ++ (vs ++ tail.drop vs.length) := by
  have hdrop : (us ++ tail).drop (us.length + vs.length) = tail.drop vs.length := by
    rw [← List.drop_drop, List.drop_left]
  rw [store, List.take_left, hdrop]

theorem length_resize (v : List T.Unit) (n : ℕ) : (resize v n).length = n := by
  rw [resize, List.length_append, List.length_take, List.length_replicate]
  omega

/-- What has been stored stays when the buffer grows. -/
theorem isPrefix_resize {us v : List T.Unit} (h : us <+: v) {n : ℕ} (hn : v.length ≤ n) :
    us <+: resize v n := by
  rw [resize, List.take_of_length_le hn]
  exact h.trans (List.prefix_append _ _)

/-- The units that have been converted remain when the buffer is cut off behind them. -/
theorem resize_length {us v : List T.Unit} (h : us <+: v) : resize v us.length = us := by
  obtain ⟨tail, rfl⟩ := h
  rw [resize, List.take_left, List.length_append, Nat.sub_eq_zero_of_le (Nat.le_add_right _ _)]
  exact List.append_nil us

namespace Buffers.Holds

variable {b : Buffers T} {done rest : List Char}

theorem inbuf_eq_nil_iff (h : b.Holds done rest) : b.inbuf = [] ↔ rest = [] := by
  rw [h.inbuf, PrefixCode.encode_eq_nil_iff]

/-- What has been converted is in the buffer, -/
theorem length_le (h : b.Holds done rest) : (T.code.encode done).length ≤ b.out.length :=
  h.out.length_le

/-- and the room behind it is what `iconv` is told. -/
theorem room (h : b.Holds done rest) : sizeof T * b.out.length - b.totalOutBytes =
    sizeof T * (b.out.length - (T.code.encode done).length) := by
  rw [h.total, Nat.mul_sub]

/-- Storing what fits. -/
theorem store (h : b.Holds done rest) {more : List Char}
    (hmore : (T.code.encode more).length ≤ b.out.length - (T.code.encode done).length) :
    let out := Iconv.store b.out (b.totalOutBytes / sizeof T) (T.code.encode more)
    T.code.encode (done ++ more) <+: out ∧ out.length = b.out.length := by
  obtain ⟨-, total, ⟨tail, hout⟩⟩ := h
  have hpos : b.totalOutBytes / sizeof T = (T.code.encode done).length := by
    rw [total, Nat.mul_div_cancel_left _ (sizeof_pos T)]
  rw [← hout, List.length_append, Nat.add_sub_cancel_left] at hmore
  dsimp only
  rw [hpos, ← hout, store_append, PrefixCode.encode_append]
  constructor
  · rw [← List.append_assoc]
    exact List.prefix_append _ _
  · rw [List.length_append, List.length_append, List.length_append, List.length_drop]
    omega

/-- The bytes that `iconv` has taken are added to the total. -/
theorem total_add (h : b.Holds done rest) {more : List Char}
    (hmore : (T.code.encode more).length ≤ b.out.length - (T.code.encode done).length) :
    let room := sizeof T * (b.out.length - (T.code.encode done).length)
    b.totalOutBytes + (room - (room - sizeof T * (T.code.encode more).length)) =
      sizeof T * (T.code.encode (done ++ more)).length := by
  have hle := Nat.mul_le_mul_left (sizeof T) hmore
  dsimp only
  rw [h.total, PrefixCode.encode_append, List.length_append, Nat.mul_add, Nat.sub_sub_self hle]

end Buffers.Holds

/-- **One turn** converts as many code points as fit. If there are more, the buffer grows. -/
theorem turn_ok {lib : Library T} (hlib : lib.Documented) {b : Buffers T} {done rest : List Char}
    (hb : b.Holds done rest) (hrest : byteOrderMark ∉ rest) :
    ∃ more rest' b', rest = more ++ rest' ∧ turn lib b = .ok b' ∧
      b'.Holds (done ++ more) rest' ∧
      (T.code.encode (done ++ more)).length ≤ b.out.length ∧
      ∀ c ∈ rest'.head?, b'.out.length = b.out.length + b.out.length / 2 ∧
        b.out.length < (T.code.encode (done ++ more ++ [c])).length := by
  obtain ⟨more, rest', rfl, hcall, hfits, hnext⟩ :=
    hlib.converts (sizeof T * b.out.length - b.totalOutBytes) hrest
  rw [hb.room] at hfits hnext hcall
  have hmore := Nat.le_of_mul_le_mul_left hfits (sizeof_pos T)
  obtain ⟨hpre, hlen⟩ := hb.store hmore
  have hle := hlen ▸ hpre.length_le
  have htotal := hb.total_add hmore
  generalize hs : Iconv.store b.out (b.totalOutBytes / sizeof T) (T.code.encode more) = out
    at hpre hlen
  have hturn : turn lib b =
      match if rest' = [] then none else some Errno.e2big with
      | none => .ok ⟨out, sizeof T * (T.code.encode (done ++ more)).length,
          CharType.char32.code.encode rest'⟩
      | some .e2big => .ok ⟨resize out (b.out.length + b.out.length / 2),
          sizeof T * (T.code.encode (done ++ more)).length, CharType.char32.code.encode rest'⟩
      | some errno => .error (.system errno) := by
    simp only [turn, hb.inbuf, hb.room, hcall, hs, htotal]
  cases rest' with
  | nil => exact ⟨more, [], _, rfl, hturn, ⟨rfl, rfl, hpre⟩, hle, fun c hc => by cases hc⟩
  | cons c rest' =>
    refine ⟨more, c :: rest', _, rfl, hturn,
      ⟨rfl, rfl, isPrefix_resize hpre (by omega)⟩, hle, fun d hd => ⟨length_resize _ _, ?_⟩⟩
    -- the next code point did not fit behind what had been converted
    have hlt := Nat.lt_of_mul_lt_mul_left (hnext d hd)
    rw [List.append_assoc, PrefixCode.encode_append, List.length_append]
    omega

theorem loop_of_nil (lib : Library T) {b : Buffers T} (hb : b.inbuf = []) (fuel : ℕ) :
    loop lib fuel b = .ok b := by
  cases fuel <;> rw [loop, if_pos hb]

/-- **The loop** comes to an end if the buffer is large enough or can grow. -/
theorem loop_ok {lib : Library T} (hlib : lib.Documented) {cs done rest : List Char}
    (hcs : cs = done ++ rest) (hmark : byteOrderMark ∉ cs) {b : Buffers T}
    (hb : b.Holds done rest)
    (hroom : (T.code.encode cs).length ≤ b.out.length ∨ 2 ≤ b.out.length) :
    ∃ b' N, b'.Holds cs [] ∧ ∀ fuel, N ≤ fuel → loop lib fuel b = .ok b' := by
  induction hn : (T.code.encode cs).length - b.out.length using Nat.strongRecOn
    generalizing done rest b with
  | ind n ih =>
    by_cases hrest : rest = []
    · subst hrest
      rw [List.append_nil] at hcs
      subst hcs
      exact ⟨b, 0, hb, fun fuel _ => loop_of_nil lib (hb.inbuf_eq_nil_iff.mpr rfl) fuel⟩
    obtain ⟨more, rest', b₁, rfl, hturn, hb₁, -, hgrows⟩ :=
      turn_ok hlib hb fun hmem => hmark (hcs ▸ List.mem_append_right done hmem)
    rw [← List.append_assoc] at hcs
    -- it is enough that the loop comes to an end after this turn
    obtain ⟨b', N, hb', hloop⟩ :
        ∃ b' N, b'.Holds cs [] ∧ ∀ fuel, N ≤ fuel → loop lib fuel b₁ = .ok b' := by
      cases rest' with
      | nil =>
        rw [List.append_nil] at hcs
        exact ⟨b₁, 0, hcs ▸ hb₁, fun fuel _ =>
          loop_of_nil lib (hb₁.inbuf_eq_nil_iff.mpr rfl) fuel⟩
      | cons c rest' =>
        obtain ⟨hlen, hlt⟩ := hgrows c rfl
        have hpre : done ++ more ++ [c] <+: cs := by
          rw [hcs]
          exact (List.prefix_append_right_inj _).mpr ⟨rest', rfl⟩
        have hle := (T.code.encode_isPrefix_iff.mpr hpre).length_le
        exact ih _ (by omega) hcs hb₁ (.inr (by omega)) rfl
    refine ⟨b', N + 1, hb', fun fuel hfuel => ?_⟩
    obtain ⟨fuel, rfl⟩ : ∃ n, fuel = n + 1 := ⟨fuel - 1, by omega⟩
    rw [loop, if_neg (mt hb.inbuf_eq_nil_iff.mp hrest), hturn]
    exact hloop fuel (by omega)

/-- **The loop never ends** for a single code point that does not fit into a buffer of one unit. -/
theorem loop_outOfFuel {lib : Library T} (hlib : lib.Documented) {c : Char}
    (hc : c ≠ byteOrderMark) (hword : 1 < (T.code.word c).length) {b : Buffers T}
    (hb : b.Holds [] [c]) (hone : b.out.length = 1) (fuel : ℕ) :
    loop lib fuel b = .error .outOfFuel := by
  have hne : b.inbuf ≠ [] := mt hb.inbuf_eq_nil_iff.mp (List.cons_ne_nil c [])
  induction fuel generalizing b with
  | zero => rw [loop, if_neg hne]
  | succ fuel ih =>
    obtain ⟨more, rest', b₁, hsplit, hturn, hb₁, hfits, hgrows⟩ :=
      turn_ok hlib hb fun hmem => hc (List.mem_singleton.mp hmem).symm
    have hmore : more = [] := by
      by_contra hmore
      obtain ⟨d, more, rfl⟩ := List.exists_cons_of_ne_nil hmore
      obtain ⟨rfl, -⟩ := List.cons.inj hsplit
      rw [List.nil_append, PrefixCode.encode_cons, List.length_append] at hfits
      omega
    subst hmore
    rw [List.nil_append] at hsplit
    subst hsplit
    obtain ⟨hlen, -⟩ := hgrows c rfl
    rw [hone] at hlen
    rw [loop, if_neg hne, hturn]
    exact ih hb₁ hlen (mt hb₁.inbuf_eq_nil_iff.mp (List.cons_ne_nil c []))

/-! ### The conversions -/

theorem length_encode_char32 (cs : List Char) :
    (CharType.char32.code.encode cs).length = cs.length := by
  rw [← map_val_eq_encode, List.length_map]

/-- The buffer that the loop begins with. -/
theorem holds_init (T : CharType) (cs : List Char) :
    Buffers.Holds ⟨resize (T := T) [] (CharType.char32.code.encode cs).length, 0,
      CharType.char32.code.encode cs⟩ [] cs :=
  ⟨rfl, (Nat.mul_zero _).symm, List.nil_prefix⟩

theorem convert_ok {lib : Library T} (hlib : lib.Documented) {cs : List Char}
    (hmark : byteOrderMark ∉ cs) (hone : ∀ c, cs = [c] → (T.code.word c).length = 1) :
    ∃ N, ∀ fuel, N ≤ fuel →
      convert fuel lib (CharType.char32.code.encode cs) = .ok (T.code.encode cs) := by
  have hroom : (T.code.encode cs).length ≤ cs.length ∨ 2 ≤ cs.length := by
    match cs with
    | [] => exact .inl le_rfl
    | [c] =>
      rw [PrefixCode.encode_cons, PrefixCode.encode_nil, List.append_nil, hone c rfl]
      exact .inl le_rfl
    | _ :: _ :: _ => exact .inr (by simp)
  obtain ⟨b, N, hb, hloop⟩ := loop_ok hlib (List.nil_append cs).symm hmark (holds_init T cs)
    (by rwa [length_resize, length_encode_char32])
  refine ⟨N, fun fuel hfuel => ?_⟩
  have hmod : b.totalOutBytes % sizeof T = 0 := by
    rw [hb.total, Nat.mul_mod_right]
  have hdiv : b.totalOutBytes / sizeof T = (T.code.encode cs).length := by
    rw [hb.total, Nat.mul_div_cancel_left _ (sizeof_pos T)]
  rw [convert, hloop fuel hfuel]
  change (if b.totalOutBytes % sizeof T = 0 then
    Except.ok (resize b.out (b.totalOutBytes / sizeof T)) else _) = _
  rw [if_pos hmod, hdiv, resize_length hb.out]

theorem convert_outOfFuel {lib : Library T} (hlib : lib.Documented) {c : Char}
    (hc : c ≠ byteOrderMark) (hword : 1 < (T.code.word c).length) (fuel : ℕ) :
    convert fuel lib (CharType.char32.code.encode [c]) = .error .outOfFuel := by
  have hloop := loop_outOfFuel hlib hc hword (holds_init T [c]) (length_resize _ _) fuel
  rw [convert, hloop]
  rfl

theorem convertUsingIcubaby_encode (T : CharType) (cs : List Char) :
    convertUsingIcubaby T (CharType.char32.code.encode cs) = .ok (T.code.encode cs) := by
  have hwf := (wellFormed_run_iff (T := T) (CharType.char32.code.encode cs)).mpr ⟨cs, rfl⟩
  have hout := encode_run T cs
  rw [map_val_eq_encode] at hout
  rw [convertUsingIcubaby, Output.copyThrough_eq]
  change (if (transcoder .char32 T).wellFormed ((transcoder .char32 T).run _).1 = true then
    Except.ok ((transcoder .char32 T).run _).2 else _) = _
  rw [if_pos hwf, hout]

/-- The comparison, once `iconv` has converted everything. -/
theorem check_ok {lib : Library T} (hlib : lib.Documented) {cs : List Char} {fuel : ℕ}
    (hconvert : convert fuel lib (CharType.char32.code.encode cs) = .ok (T.code.encode cs)) :
    check fuel lib (CharType.char32.code.encode cs) = .ok true := by
  have hiconv : convertUsingIconv fuel lib (CharType.char32.code.encode cs) =
      .ok (T.code.encode cs) := by
    simp only [convertUsingIconv, hlib.opens, hconvert, hlib.closes]
    rfl
  rw [check, convertUsingIcubaby_encode, hiconv]
  change Except.ok (decide (_ = _)) = _
  rw [decide_eq_true rfl]

theorem check_outOfFuel {lib : Library T} (hlib : lib.Documented) {cs : List Char} {fuel : ℕ}
    (hconvert : convert fuel lib (CharType.char32.code.encode cs) = .error .outOfFuel) :
    check fuel lib (CharType.char32.code.encode cs) = .error .outOfFuel := by
  have hiconv : convertUsingIconv fuel lib (CharType.char32.code.encode cs) =
      .error .outOfFuel := by
    simp only [convertUsingIconv, hlib.opens, hconvert]
    rfl
  rw [check, convertUsingIcubaby_encode, hiconv]
  rfl

/-- The code points of the program are scalar values other than the byte order mark. -/
theorem exists_allCodePoints {cps : List UInt32} (hcps : ∀ cp ∈ cps, cp.toNat ≤ maxCodePoint) :
    ∃ cs : List Char, allCodePoints cps = CharType.char32.code.encode cs ∧
      byteOrderMark ∉ cs := by
  have hall : ∀ cp ∈ allCodePoints cps,
      (¬ IsSurrogate cp.toNat ∧ cp ≠ byteOrderMark.val) ∧ cp.toNat ≤ maxCodePoint := by
    intro cp hcp
    obtain ⟨hmem, hkept⟩ := List.mem_filter.mp hcp
    exact ⟨of_decide_eq_true hkept, hcps cp hmem⟩
  obtain ⟨cs, hcs⟩ := CharType.wellFormed_char32 fun cp hcp => ⟨(hall cp hcp).1.1, (hall cp hcp).2⟩
  refine ⟨cs, hcs.symm, fun hmark => ?_⟩
  have hmem : byteOrderMark.val ∈ allCodePoints cps := by
    rw [← hcs, ← map_val_eq_encode]
    exact List.mem_map_of_mem hmark
  exact (hall _ hmem).1.2 rfl

end Iconv

open Iconv

/-- **The comparison with `iconv`.** With a library that does what is documented, whatever list of
code points is taken, the comparison comes to an end and succeeds, except for a single code point
that needs more than one unit. Then the loop never ends. -/
theorem iconv_check {T : CharType} {lib : Library T} (hlib : lib.Documented) {cps : List UInt32}
    (hcps : ∀ cp ∈ cps, cp.toNat ≤ maxCodePoint) :
    ((∃ N, ∀ fuel, N ≤ fuel → Iconv.check fuel lib (allCodePoints cps) = .ok true) ↔
      ∀ cp, allCodePoints cps = [cp] → T.wordLength cp.toNat = 1) ∧
    ∀ cp, allCodePoints cps = [cp] → T.wordLength cp.toNat ≠ 1 →
      ∀ fuel, Iconv.check fuel lib (allCodePoints cps) = .error .outOfFuel := by
  obtain ⟨cs, hall, hmark⟩ := exists_allCodePoints hcps
  have hdiverges : ∀ cp, allCodePoints cps = [cp] → T.wordLength cp.toNat ≠ 1 →
      ∀ fuel, Iconv.check fuel lib (allCodePoints cps) = .error .outOfFuel := by
    intro cp hcp hlen fuel
    obtain ⟨c, rfl⟩ : ∃ c, cs = [c] := List.length_eq_one_iff.mp (by
      rw [← length_encode_char32, ← hall, hcp, List.length_singleton])
    obtain rfl : c.val = cp := (List.cons.inj (hall.symm.trans hcp)).1
    have hne : c ≠ byteOrderMark := fun heq => hmark (heq ▸ List.mem_singleton_self c)
    have hpos := List.length_pos_iff.mpr (T.code.word_ne_nil c)
    have hword : (T.code.word c).length ≠ 1 := by rwa [CharType.length_word]
    rw [hall]
    exact check_outOfFuel hlib (convert_outOfFuel hlib hne (by omega) fuel)
  refine ⟨⟨?_, fun hone => ?_⟩, hdiverges⟩
  · rintro ⟨N, hN⟩ cp hcp
    by_contra hlen
    have hok := hN N le_rfl
    rw [hdiverges cp hcp hlen N] at hok
    cases hok
  · have hword : ∀ c, cs = [c] → (T.code.word c).length = 1 := by
      rintro c rfl
      rw [CharType.length_word]
      exact hone c.val hall
    obtain ⟨N, hN⟩ := convert_ok hlib hmark hword
    refine ⟨N, fun fuel hfuel => ?_⟩
    rw [hall]
    exact check_ok hlib (hN fuel hfuel)

/-- U+00E9 needs two units of UTF-8: alone it is never converted. -/
theorem iconv_check_single :
    (¬ ∃ N, ∀ fuel, N ≤ fuel →
      Iconv.check fuel (Library.greedy .char8) (allCodePoints [0xE9]) = .ok true) ∧
    ∃ N, ∀ fuel, N ≤ fuel →
      Iconv.check fuel (Library.greedy .char8) (allCodePoints [0xE9, 0x41]) = .ok true := by
  have hlib := Library.documented_greedy .char8
  constructor
  · intro h
    have hcps : ∀ cp ∈ [(0xE9 : UInt32)], cp.toNat ≤ maxCodePoint := by simp [maxCodePoint]
    exact absurd ((iconv_check hlib hcps).1.mp h 0xE9 (by decide)) (by decide)
  · have hcps : ∀ cp ∈ [(0xE9 : UInt32), 0x41], cp.toNat ≤ maxCodePoint := by simp [maxCodePoint]
    refine (iconv_check hlib hcps).1.mpr fun cp hcp => ?_
    have hlen : (allCodePoints [0xE9, 0x41]).length = 2 := by decide
    rw [hcp] at hlen
    cases hlen

end Icubaby
