import Elbencho.Library.XorSums

/-!
# The hash of the service password

Master and service share a secret, the first line of a password file.  The master sends a hash
of it with its requests, `HashTk::simple128`, and the service compares it with the hash of its
own secret.

The loop of the hash combines every character with an exclusive or, and with nothing else: the
contribution of a character depends neither on its place nor on the characters before.  So two
passwords have the same hash exactly when the contributions of all their characters together
cancel (**`simple128_eq_iff`**), and an anagram of the password does (`simple128_anagram`).  The
contributions of the printable characters are linearly independent.  For passwords of printable
characters, the hash is therefore the set of the characters that come an odd number of times.
-/

namespace Elbencho

open XorSums

/-! ## The model -/

/-- `static_cast<uint64_t>(c)` of a `char`, which is signed on some platforms. -/
def charValue (charIsSigned : Bool) (c : BitVec 8) : BitVec 64 :=
  if charIsSigned then c.signExtend 64 else c.setWidth 64

namespace HashTk

/-- `simple128CombineHelper`. -/
def simple128CombineHelper (x y : BitVec 64) : BitVec 64 := x ^^^ (y * 0x9E3779B97F4A7C15#64)

def multiplier : BitVec 64 := 0x87C37B91114253D5#64

def seed : BitVec 64 := 0x4CF5AD432745937F#64

/-- `hash1` and `hash2` after the loop. -/
def simple128Hashes (charIsSigned : Bool) (input : List (BitVec 8)) : BitVec 64 × BitVec 64 :=
  input.foldl
    (fun (hash1, hash2) c =>
      let value := charValue charIsSigned c
      (simple128CombineHelper hash1 (value * multiplier),
        simple128CombineHelper hash2 (value * seed)))
    (0xC6A4A7935BD1E995#64, 0xDEADBEEFCAFEBABE#64)

/-- A hexadecimal digit. -/
def hexDigit (n : ℕ) : Char := "0123456789abcdef".toList.getD n '0'

/-- A word in 16 hexadecimal digits. -/
def hex16 (x : BitVec 64) : List Char :=
  (List.range 16).map fun i => hexDigit ((x.toNat >>> (4 * (15 - i))) % 16)

/-- `simple128`. -/
def simple128 (charIsSigned : Bool) (input : List (BitVec 8)) : String :=
  let (hash1, hash2) := simple128Hashes charIsSigned input
  String.ofList (hex16 hash1 ++ hex16 hash2)

end HashTk

/-- `loadServicePasswordFile`: the hash of the first line.  The file has contents if it can be
opened. -/
def loadServicePasswordFile (charIsSigned : Bool) (svcPasswordFile : String)
    (contents : Option (List (BitVec 8))) : Except String String :=
  if svcPasswordFile = "" then .ok ""
  else
    match contents with
    | none => .error ("Opening service password file failed: " ++ svcPasswordFile)
    | some bytes =>
      let lineStr := bytes.takeWhile (· ≠ 10#8)
      if lineStr = [] then
        .error ("First line in service password file is empty: " ++ svcPasswordFile)
      else .ok (HashTk.simple128 charIsSigned lineStr)

namespace HashTk

/-! ## The digits -/

theorem hexDigit_inj : ∀ m < 16, ∀ n < 16, hexDigit m = hexDigit n → m = n := by decide

theorem hex16_injective : Function.Injective hex16 := by
  intro x y h
  refine BitVec.eq_of_getLsbD_eq fun k hk => ?_
  -- the bit is in the digit with the weight 16 ^ (k / 4)
  have hdigit := List.map_inj_left.mp h (15 - k / 4) (List.mem_range.mpr (by omega))
  have hnibble := hexDigit_inj _ (Nat.mod_lt _ (by decide)) _ (Nat.mod_lt _ (by decide)) hdigit
  have hplace : 4 * (15 - (15 - k / 4)) + k % 4 = k := by omega
  have hbit := congrArg (Nat.testBit · (k % 4)) hnibble
  simp only [show (16 : ℕ) = 2 ^ 4 from rfl, Nat.testBit_mod_two_pow, Nat.testBit_shiftRight,
    hplace, show k % 4 < 4 from Nat.mod_lt _ (by decide), decide_true, Bool.true_and] at hbit
  simpa [BitVec.testBit_toNat] using hbit

theorem length_hex16 (x : BitVec 64) : (hex16 x).length = 16 := by simp [hex16]

/-- The text tells the two words. -/
theorem simple128_eq_iff_hashes (charIsSigned : Bool) (p q : List (BitVec 8)) :
    simple128 charIsSigned p = simple128 charIsSigned q ↔
      simple128Hashes charIsSigned p = simple128Hashes charIsSigned q := by
  constructor
  · intro h
    have hlist := String.ofList_injective h
    obtain ⟨h1, h2⟩ := List.append_inj hlist (by rw [length_hex16, length_hex16])
    exact Prod.ext (hex16_injective h1) (hex16_injective h2)
  · intro h
    rw [simple128, simple128, h]

/-! ## Contributions -/

/-- What a character contributes to the two words. -/
def contribution (charIsSigned : Bool) (c : BitVec 8) : BitVec 128 :=
  (charValue charIsSigned c * multiplier * 0x9E3779B97F4A7C15#64) ++
    (charValue charIsSigned c * seed * 0x9E3779B97F4A7C15#64)

/-- **The loop adds contributions.** -/
theorem append_simple128Hashes (charIsSigned : Bool) (input : List (BitVec 8)) :
    (simple128Hashes charIsSigned input).1 ++ (simple128Hashes charIsSigned input).2 =
      (0xC6A4A7935BD1E995#64 ++ 0xDEADBEEFCAFEBABE#64 : BitVec 128) ^^^
        xorSum (input.map (contribution charIsSigned)) := by
  have hloop : ∀ (input : List (BitVec 8)) (h : BitVec 64 × BitVec 64),
      let r := input.foldl
        (fun (hash1, hash2) c =>
          (simple128CombineHelper hash1 (charValue charIsSigned c * multiplier),
            simple128CombineHelper hash2 (charValue charIsSigned c * seed))) h
      (r.1 ++ r.2 : BitVec 128) =
        (h.1 ++ h.2 : BitVec 128) ^^^ xorSum (input.map (contribution charIsSigned)) := by
    intro input
    induction input with
    | nil => intro h; simp
    | cons c input ih =>
      intro h
      rw [List.map_cons, xorSum_cons, ← BitVec.xor_assoc]
      refine (ih _).trans (congrArg (· ^^^ _) ?_)
      exact BitVec.xor_append.symm
  exact hloop input _

/-- Equal hashes are contributions that cancel. -/
theorem simple128_eq_iff_xorSum (charIsSigned : Bool) (p q : List (BitVec 8)) :
    simple128 charIsSigned p = simple128 charIsSigned q ↔
      xorSum ((p ++ q).map (contribution charIsSigned)) = 0#128 := by
  rw [simple128_eq_iff_hashes, List.map_append, xorSum_append, BitVec.xor_eq_zero_iff,
    ← BitVec.xor_right_inj (0xC6A4A7935BD1E995#64 ++ 0xDEADBEEFCAFEBABE#64 : BitVec 128),
    ← append_simple128Hashes, ← append_simple128Hashes]
  constructor
  · intro h
    rw [h]
  · intro h
    have hlow := congrArg (BitVec.setWidth 64) h
    have hhigh := congrArg (BitVec.extractLsb' 64 64) h
    simp only [BitVec.setWidth_append_eq_right, BitVec.extractLsb'_append_eq_left] at hlow hhigh
    exact Prod.ext hhigh hlow

/-! ## Printable characters -/

/-- A printable character, from the space to the tilde. -/
def isPrintable (c : BitVec 8) : Bool := 32 ≤ c.toNat ∧ c.toNat ≤ 126

/-- Whether a number of 128 bits has an odd number of ones. -/
def parity (x : ℕ) : Bool :=
  let x := x ^^^ (x >>> 64)
  let x := x ^^^ (x >>> 32)
  let x := x ^^^ (x >>> 16)
  let x := x ^^^ (x >>> 8)
  let x := x ^^^ (x >>> 4)
  let x := x ^^^ (x >>> 2)
  let x := x ^^^ (x >>> 1)
  x % 2 == 1

/-- The contribution of the printable character `32 + i`, and of no other printable one, has an odd
number of bits in common with entry `i`. -/
def dualMasks : List ℕ := [
    0xc79ed7d872f64030481082c140840000, 0x15eba308434b21d624001d83a8440000,
    0xa114e2e40bcc6714181cb4c4b5800000, 0xa50bc65c31abde60a0002743c5440000,
    0x329285dca87ab71e2c041e4497440000, 0xce0566908d4e5e9a0008ba806cc00000,
    0x07830cac88515474d404da4508000000, 0x9a225e5cd70a2396ac1833e42ec40000,
    0x828f2da4a0b42de4f0141ca23fc00000, 0xb7552340286e2f7248148be571c40000,
    0x5bef45e08cdd4e14281c72c19d840000, 0xf127f698234e86600c009363a3c00000,
    0x15bf367881595556600cf7c6b0c40000, 0x94f42388ae103526480c12a3d6c40000,
    0xf387eb1c2c5b038098085f81fa400000, 0x389fea84e8c38fecd000ef01d7440000,
    0xa93d22f89a7f590a200c69644fc00000, 0x7cdd7e6c20fa416af40c1c669a400000,
    0x994264e44910fa4eec087723d2400000, 0x996b59085f9908c84004ea6794440000,
    0xa48e5f0cb638c1802c0009a699800000, 0xf89eaf104a066e8e700ccb85f4c40000,
    0xcba66af0b06dda9e64148a6753c00000, 0x003b8004020000404000000000000000,
    0x385c970c492877f0340c77c2bd400000, 0x1805a4bc145a88cc0810b56076400000,
    0xd8549ca8ce498eecd4049524b2c40000, 0xe731e1507fe8a28af818c18514840000,
    0x9a199b80238d3ee23c04dca2d8c40000, 0x199637d0ab281a20b4009542e8000000,
    0x3986e988643f0462d808b84111040000, 0x70c0c64c75fabc72001891e686440000,
    0x00000000000000400000000400000000, 0x6221f3c44d70a12ee81896628bc00000,
    0xba548ad865be5afa9818b14340440000, 0x2bd36bd00f3134b2880074879e040000,
    0x76026ebc8a59b4b6600004245d800000, 0x44f80cec9a889cf4001841c590800000,
    0x4045b07c6987f3de00085a211cc40000, 0x74953e887668a40ee40878849d800000,
    0x96c1936c2faff670e418bf01b7840000, 0x3b26b5fc93f83a96c414b702ba000000,
    0x4b675f4081233c66f404adc4e7000000, 0x4e861348e5c3bb1ab00886261a800000,
    0xbcca60b821cc37469408dac3c1800000, 0x7c9d7e6c223a010aac0c1c609a400000,
    0x09f373d0e33f18dcac08b6454f440000, 0x9190d7bcdfed97da4000f20437440000,
    0xb48dd930c76212acb0009de453040000, 0x00200004030000006000000000000000,
    0xc0635b5034f796866014bde07f400000, 0x75cf01a415878a84a800fde2e3c40000,
    0x777a3b1ccedef484381086c1ab400000, 0xf5ffa24c1b7027d8e814e502a3800000,
    0x7396cab4d52f2f22380c1f2618840000, 0x09d3b3d4e33f18bcac08b6454f440000,
    0xe2bdd59cc89b3ff690105044f1040000, 0xc5c234a8cf1dbb985000ed22acc00000,
    0x041202c087bc54f0cc085ea7b9c40000, 0x92de25c87f59a59cf01cc5077cc00000,
    0xf1b2f964db1f5cd424048de53fc40000, 0x9b890634daf985a8181004c787c40000,
    0xca5e2d0409e03c0e6408acc10dc40000, 0x00400004000060000000000000000000,
    0xc79ed7d872f64050481082c740840000, 0x23d92b644cc39d6640046ec3a4440000,
    0x00000000018000403000000400000000, 0xcb2ec7e417731a52280c69a502400000,
    0x17ec93a0e6a12af8a8144ce5a1c40000, 0x9e6fc060a16e7f760814f464ad840000,
    0x02451e88425472c21c1095050a040000, 0x11879d2c4fc39c3220109a46c5800000,
    0x11266810d5b88af4c000ec612b400000, 0x7602b6441bcc64a2f800bf61f3440000,
    0x1c23c2b8b36aa252681cd8c20b040000, 0x76d68948eddf92280c0026e471400000,
    0x71a1ec589adc7b922c10e282e3040000, 0x00200004220000004000800000000000,
    0xcb15c7e027731a52280ca9a502400000, 0x65ce334c1d8fe1d86004a323d2400000,
    0x81c06400b046f124cc10d5a5d3840000, 0x7cdd7e6c203a410aec0c1c609a400000,
    0xdd884768ec8886caf800d984e0c40000, 0x5f539cd018d1fc462410526463400000,
    0x00e3c924759572e044086d2563400000, 0x86177b30f52d7e2c001c75c4f7400000,
    0x7e6158c41ef72374fc08030418440000, 0xcb2ec7e427731a52280ca9a502400000,
    0xdf899448db10197e701068456f400000, 0x9c709fc8ed5bbab25c1c2126cf400000,
    0x1482cc188ace2160980cf7636e440000, 0x62ba57d8ebd285de1c045ba0a4800000,
    0x06f0027c28d030305c08f924c6400000, 0xb3f374c4d6d75b102808a6e7bec00000,
    0xb379cbcc126c59b80c1408238c400000]

/-- The form of a printable character. -/
def dualForm (c : BitVec 8) (x : BitVec 128) : Bool :=
  parity (x.toNat &&& dualMasks.getD (c.toNat - 32) 0)

theorem xor_shift_xor (x y n : ℕ) :
    (x ^^^ y) ^^^ ((x ^^^ y) >>> n) = (x ^^^ (x >>> n)) ^^^ (y ^^^ (y >>> n)) := by
  rw [Nat.shiftRight_xor_distrib]
  ac_rfl

theorem parity_xor (x y : ℕ) : parity (x ^^^ y) = (parity x ^^ parity y) := by
  have hlast : ∀ x y : ℕ, ((x ^^^ y) % 2 == 1) = ((x % 2 == 1) ^^ (y % 2 == 1)) := by
    intro x y
    have hbit : ∀ z : ℕ, (z % 2 == 1) = z.testBit 0 := by
      simp [Nat.testBit_zero, Bool.beq_eq_decide_eq]
    rw [hbit, hbit, hbit, Nat.testBit_xor]
  simp only [parity, xor_shift_xor, hlast]

theorem isLinear_dualForm (c : BitVec 8) : IsLinear (dualForm c) := by
  intro x y
  rw [dualForm, BitVec.toNat_xor, Nat.and_xor_distrib_right, parity_xor]
  rfl

/-- The contribution of a character below 128, computed with numbers. -/
def contributionNat (c : ℕ) : ℕ :=
  c * 0x87C37B91114253D5 * 0x9E3779B97F4A7C15 % 2 ^ 64 * 2 ^ 64 +
    c * 0x4CF5AD432745937F * 0x9E3779B97F4A7C15 % 2 ^ 64

theorem toNat_contribution : ∀ c < 95,
    (contribution false (BitVec.ofNat 8 (32 + c))).toNat = contributionNat (32 + c) := by
  decide +kernel

/-- The masks from number `c` on are dual to the contributions. -/
def dualCheck : ℕ → List ℕ → Bool
  | _, [] => true
  | c, u :: masks =>
    ((List.range 95).all fun d => parity (contributionNat (32 + d) &&& u) == (d == c)) &&
      dualCheck (c + 1) masks

theorem dualCheck_dualMasks : dualCheck 0 dualMasks = true := by decide +kernel

theorem parity_of_dualCheck {masks : List ℕ} {c : ℕ} (h : dualCheck c masks = true) {i d : ℕ}
    (hi : i < masks.length) (hd : d < 95) :
    parity (contributionNat (32 + d) &&& masks.getD i 0) = decide (d = c + i) := by
  induction masks generalizing c i with
  | nil => exact absurd hi (Nat.not_lt_zero i)
  | cons u masks ih =>
    rw [dualCheck, Bool.and_eq_true] at h
    cases i with
    | zero =>
      have hrow := List.all_eq_true.mp h.1 d (List.mem_range.mpr hd)
      rw [List.getD_cons_zero, beq_iff_eq.mp hrow, Nat.add_zero]
      rfl
    | succ i =>
      rw [List.getD_cons_succ, ih h.2 (Nat.lt_of_succ_lt_succ hi)]
      refine decide_eq_decide.mpr ?_
      omega

/-- The value of a printable character does not depend on the platform. -/
theorem charValue_printable :
    ∀ c < 95,
      charValue true (BitVec.ofNat 8 (32 + c)) = charValue false (BitVec.ofNat 8 (32 + c)) := by
  decide

/-- **The contributions of the printable characters are independent.** -/
theorem dualForm_contribution (charIsSigned : Bool) {c d : BitVec 8} (hc : isPrintable c = true)
    (hd : isPrintable d = true) :
    dualForm c (contribution charIsSigned d) = decide (d = c) := by
  simp only [isPrintable, decide_eq_true_eq] at hc hd
  have hofNat : BitVec.ofNat 8 (32 + (d.toNat - 32)) = d := by
    rw [Nat.add_sub_cancel' hd.1, BitVec.ofNat_toNat, BitVec.setWidth_eq]
  have hvalue := charValue_printable (d.toNat - 32) (by omega)
  have htoNat := toNat_contribution (d.toNat - 32) (by omega)
  rw [hofNat] at hvalue htoNat
  have hsigned : contribution charIsSigned d = contribution false d := by
    cases charIsSigned with
    | false => rfl
    | true => rw [contribution, hvalue]; rfl
  rw [dualForm, hsigned, htoNat,
    parity_of_dualCheck dualCheck_dualMasks
      (show c.toNat - 32 < dualMasks.length by rw [show dualMasks.length = 95 from rfl]; omega)
      (show d.toNat - 32 < 95 by omega)]
  refine decide_eq_decide.mpr ⟨fun h => BitVec.eq_of_toNat_eq ?_, fun h => by rw [h, Nat.zero_add]⟩
  omega

/-- Contributions of printable characters cancel in pairs only. -/
theorem xorSum_eq_zero_iff_of_printable (charIsSigned : Bool) {l : List (BitVec 8)}
    (h : ∀ c ∈ l, isPrintable c = true) :
    xorSum (l.map (contribution charIsSigned)) = 0#128 ↔ ∀ c, Even (l.count c) := by
  constructor
  · intro hzero c
    by_cases hc : c ∈ l
    · exact even_count_of_dual (isLinear_dualForm c)
        (fun d hd => dualForm_contribution charIsSigned (h c hc) (h d hd)) hzero
    · rw [List.count_eq_zero_of_not_mem hc]
      exact Even.zero
  · exact xorSum_map_eq_zero_of_even _

/-- **When two passwords have the same hash**: for every bit of the two words, an even number of
their characters contribute to it.  If all characters are printable, every one of them comes an
even number of times in both passwords together. -/
theorem simple128_eq_iff (charIsSigned : Bool) (p q : List (BitVec 8)) :
    (simple128 charIsSigned p = simple128 charIsSigned q ↔
      ∀ i, Even ((p ++ q).countP fun c => (contribution charIsSigned c).getLsbD i)) ∧
    ((∀ c ∈ p ++ q, isPrintable c = true) →
      (simple128 charIsSigned p = simple128 charIsSigned q ↔ ∀ c, Even ((p ++ q).count c))) := by
  refine ⟨?_, fun h => ?_⟩
  · rw [simple128_eq_iff_xorSum, xorSum_eq_zero_iff]
    refine forall_congr' fun i => ?_
    rw [List.countP_map]
    rfl
  · rw [simple128_eq_iff_xorSum, xorSum_eq_zero_iff_of_printable charIsSigned h]

/-- The passwords `ab` and `abb` have different hashes. -/
theorem simple128_eq_iff_ab :
    simple128 true [97#8, 98#8] ≠ simple128 true [97#8, 98#8, 98#8] := by
  intro h
  have heven := ((simple128_eq_iff true [97#8, 98#8] [97#8, 98#8, 98#8]).2 (by decide)).mp h 98#8
  exact absurd heven (by decide)

/-- A password and its anagram have the same hash. -/
theorem simple128_anagram :
    [97#8, 98#8] ≠ [98#8, 97#8] ∧ simple128 true [97#8, 98#8] = simple128 true [98#8, 97#8] ∧
      loadServicePasswordFile true "secret" (some [97#8, 98#8, 10#8]) =
        loadServicePasswordFile true "secret" (some [98#8, 97#8, 10#8]) := by
  decide

end HashTk

end Elbencho
