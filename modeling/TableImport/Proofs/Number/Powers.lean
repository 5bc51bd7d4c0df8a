import TableImport.Proofs.Number.Arithmetic

/-! Powers of ten as doubles: how large they are, which are exact and which are infinite. -/
namespace TableImport.Binary64
open Float.Model (Format UnpackedFloat)
open Float.Model.UnpackedFloat (pack)

/-! ### Products of doubles from one on -/

/-- The size bits of a power of two; from 2¹⁰²⁴ on they are those of infinity. -/
def twoPowBits (s : Nat) : Nat := (1023 + min s 1024) * 2 ^ 52

theorem twoPowBits_le_infinityBits (s : Nat) : twoPowBits s ≤ infinityBits := by
  unfold twoPowBits infinityBits
  omega

theorem twoPowBits_top : twoPowBits 1024 = infinityBits := by decide

theorem twoPowBits_mono {s t : Nat} (h : s ≤ t) : twoPowBits s ≤ twoPowBits t := by
  unfold twoPowBits
  exact Nat.mul_le_mul_right _ (by omega)

theorem unitsOfBits_twoPowBits (s : Nat) :
    unitsOfBits (twoPowBits s) = 2 ^ min s 1024 * unitsOfOne := unitsOfBits_two_pow _

/-- The size bits of the product of two doubles from one on, where infinity counts as 2¹⁰²⁴. -/
def productBits (b b' : Nat) : Nat :=
  nearestBits (unitsOfBits b * unitsOfBits b') (unitsOfOne * unitsOfOne)

theorem productBits_le_infinityBits (b b' : Nat) : productBits b b' ≤ infinityBits :=
  Nat.min_le_right _ _

theorem le_productBits {b b' s t : Nat} (hb : twoPowBits s ≤ b) (hb' : twoPowBits t ≤ b') :
    twoPowBits (s + t) ≤ productBits b b' := by
  have hunits := unitsOfBits_strictMono.monotone hb
  have hunits' := unitsOfBits_strictMono.monotone hb'
  rw [unitsOfBits_twoPowBits] at hunits hunits'
  apply le_nearestBits (Nat.mul_pos unitsOfOne_pos unitsOfOne_pos) (twoPowBits_le_infinityBits _)
  have hpow : 2 ^ min (s + t) 1024 ≤ 2 ^ (min s 1024 + min t 1024) :=
    Nat.pow_le_pow_right (by decide) (by omega)
  calc unitsOfBits (twoPowBits (s + t)) * (unitsOfOne * unitsOfOne)
      ≤ 2 ^ (min s 1024 + min t 1024) * unitsOfOne * (unitsOfOne * unitsOfOne) := by
        rw [unitsOfBits_twoPowBits]
        exact Nat.mul_le_mul_right _ (Nat.mul_le_mul_right _ hpow)
    _ = 2 ^ min s 1024 * unitsOfOne * (2 ^ min t 1024 * unitsOfOne) * unitsOfOne := by ring
    _ ≤ unitsOfBits b * unitsOfBits b' * unitsOfOne :=
      Nat.mul_le_mul_right _ (Nat.mul_le_mul hunits hunits')

section
variable {b b' : Nat}

theorem one_le_productBits (hb : twoPowBits 0 ≤ b) (hb' : twoPowBits 0 ≤ b') :
    twoPowBits 0 ≤ productBits b b' := le_productBits (s := 0) (t := 0) hb hb'

theorem unpack_of_pos (hb : 0 < b) (hle : b ≤ infinityBits) :
    (ofSignBits false b).toModel.unpack = .infinity .positive ∨
      ∃ m e hm, (ofSignBits false b).toModel.unpack = .finite .positive m e hm := by
  rcases Nat.lt_or_eq_of_le hle with hlt | rfl
  · right
    rw [unpack_ofSignBits hlt, unpacked, dif_neg (mt significand_eq_zero.mp (Nat.ne_of_gt hb))]
    exact ⟨_, _, _, rfl⟩
  · exact .inl unpack_infinity

theorem toBits_pack_infinity :
    UInt64.ofBitVec (pack Format.binary64 (.infinity .positive)) = infinity.toBits := by
  decide

theorem ofSignBits_mul_infinity (hb : 0 < b) (hle : b ≤ infinityBits) :
    ofSignBits false b * infinity = infinity := by
  apply Float.toBits_inj.mp
  rcases unpack_of_pos hb hle with hu | ⟨m, e, hm, hu⟩
  · exact (toBits_mul hu unpack_infinity).trans toBits_pack_infinity
  · exact (toBits_mul hu unpack_infinity).trans toBits_pack_infinity

theorem infinity_mul_ofSignBits (hb : 0 < b) (hle : b ≤ infinityBits) :
    infinity * ofSignBits false b = infinity := by
  apply Float.toBits_inj.mp
  rcases unpack_of_pos hb hle with hu | ⟨m, e, hm, hu⟩
  · exact (toBits_mul unpack_infinity hu).trans toBits_pack_infinity
  · exact (toBits_mul unpack_infinity hu).trans toBits_pack_infinity

/-- Doubles from one on are multiplied by their sizes, infinity included. -/
theorem ofSignBits_mul (hb : twoPowBits 0 ≤ b) (hle : b ≤ infinityBits) (hb' : twoPowBits 0 ≤ b')
    (hle' : b' ≤ infinityBits) :
    ofSignBits false b * ofSignBits false b' = ofSignBits false (productBits b b') := by
  have hone : 0 < twoPowBits 0 := by decide
  rcases Nat.lt_or_eq_of_le hle with hlt | rfl
  · rcases Nat.lt_or_eq_of_le hle' with hlt' | rfl
    · rw [mul_ofSignBits (isFinite_ofSignBits hlt) hlt', isNegative_ofSignBits hle,
        units_ofSignBits hle]
      rfl
    · have hbits : productBits b infinityBits = infinityBits :=
        Nat.le_antisymm (productBits_le_infinityBits _ _)
          (le_productBits (s := 0) (t := 1024) hb twoPowBits_top.le)
      rw [hbits]
      exact ofSignBits_mul_infinity (lt_of_lt_of_le hone hb) hle
  · have hbits : productBits infinityBits b' = infinityBits :=
      Nat.le_antisymm (productBits_le_infinityBits _ _)
        (le_productBits (s := 1024) (t := 0) twoPowBits_top.le hb')
    rw [hbits]
    exact infinity_mul_ofSignBits (lt_of_lt_of_le hone hb') hle'

end

/-! ### Powers by squaring -/

/-- The size bits of `r * a ^ e` by squaring, for doubles from one on. -/
def powerBits : Nat → Nat → Nat → Nat → Nat
  | 0, r, _, _ => r
  | n + 1, r, a, e =>
    powerBits n (if e % 2 = 1 then productBits r a else r) (productBits a a) (e / 2)

theorem squareMultiply_zero (n : Nat) (r a : Float) : squareMultiply n r a 0 = r := by
  cases n with
  | zero => rfl
  | succ n =>
    rw [squareMultiply]
    rfl

theorem squareMultiply_succ (n : Nat) (r a : Float) (e : Nat) :
    squareMultiply (n + 1) r a e =
      squareMultiply n (if e % 2 = 1 then r * a else r) (a * a) (e / 2) := by
  rw [squareMultiply]
  split
  · next hlast => rw [hlast, squareMultiply_zero]
  · rfl

variable {n r a e : Nat}

theorem squareMultiply_ofSignBits (hr : twoPowBits 0 ≤ r) (hrle : r ≤ infinityBits)
    (ha : twoPowBits 0 ≤ a) (hale : a ≤ infinityBits) :
    squareMultiply n (ofSignBits false r) (ofSignBits false a) e =
      ofSignBits false (powerBits n r a e) := by
  induction n generalizing r a e with
  | zero => rfl
  | succ n ih =>
    have hproduct : (if e % 2 = 1 then ofSignBits false r * ofSignBits false a
        else ofSignBits false r) =
          ofSignBits false (if e % 2 = 1 then productBits r a else r) := by
      split
      · exact ofSignBits_mul hr hrle ha hale
      · rfl
    rw [squareMultiply_succ, hproduct, ofSignBits_mul ha hale ha hale]
    apply ih _ _ (one_le_productBits ha ha) (productBits_le_infinityBits _ _)
    · split
      · exact one_le_productBits hr ha
      · exact hr
    · split
      · exact productBits_le_infinityBits _ _
      · exact hrle

/-- The low digits of the exponent first, then the others with a base squared as often. -/
theorem powerBits_add (m n r a e : Nat) : powerBits (m + n) r a e =
    powerBits n (powerBits m r a (e % 2 ^ m)) ((fun b => productBits b b)^[m] a) (e / 2 ^ m) := by
  induction m generalizing r a e with
  | zero => rw [Nat.zero_add, Nat.pow_zero, Nat.div_one, powerBits, Function.iterate_zero_apply]
  | succ m ih =>
    have hparity : e % (2 * 2 ^ m) % 2 = e % 2 := Nat.mod_mul_right_mod e 2 (2 ^ m)
    have hhalf : e % (2 * 2 ^ m) / 2 = e / 2 % 2 ^ m := Nat.mod_mul_right_div_self e 2 (2 ^ m)
    rw [Nat.succ_add, powerBits, ih, Function.iterate_succ_apply, Nat.pow_succ', powerBits, hparity,
      hhalf, Nat.div_div_eq_div_mul]

/-- What holds of the factor and of the base, with their own exponents, holds of the power if
products add the exponents. -/
theorem powerBits_induction {P Q : Nat → Nat → Prop}
    (hsquare : ∀ {t a}, Q t a → Q (t + t) (productBits a a))
    (hproduct : ∀ {s t r a}, P s r → Q t a → P (s + t) (productBits r a)) {s t : Nat}
    (hr : P s r) (ha : Q t a) (he : e < 2 ^ n) : P (s + t * e) (powerBits n r a e) := by
  induction n generalizing r a e s t with
  | zero =>
    have hzero : e = 0 := by omega
    subst hzero
    exact hr
  | succ n ih =>
    have hlast : P (s + t * (e % 2)) (if e % 2 = 1 then productBits r a else r) := by
      rcases Nat.mod_two_eq_zero_or_one e with heven | hodd
      · rw [heven, if_neg (by decide)]
        exact hr
      · rw [hodd, if_pos rfl, Nat.mul_one]
        exact hproduct hr ha
    have hexponent : s + t * (e % 2) + (t + t) * (e / 2) = s + t * e := by
      conv_rhs => rw [← Nat.mod_add_div e 2]
      ring
    have hrest := ih hlast (hsquare ha) (e := e / 2) (by omega)
    rwa [hexponent] at hrest

/-- A power is no smaller than that of a power of two below the base. -/
theorem le_powerBits {s t : Nat} (hr : twoPowBits s ≤ r) (ha : twoPowBits t ≤ a) (he : e < 2 ^ n) :
    twoPowBits (s + t * e) ≤ powerBits n r a e :=
  powerBits_induction (P := fun s b => twoPowBits s ≤ b) (Q := fun t b => twoPowBits t ≤ b)
    (fun ha => le_productBits ha ha) le_productBits hr ha he

theorem powerBits_le_infinityBits (hr : r ≤ infinityBits) (he : e < 2 ^ n) :
    powerBits n r a e ≤ infinityBits :=
  powerBits_induction (P := fun _ b => b ≤ infinityBits) (Q := fun _ _ => True) (s := 0) (t := 0)
    (fun _ => trivial) (fun _ _ => productBits_le_infinityBits _ _) hr trivial he

/-! ### What powers are not above -/

theorem unitsOfBits_add {r s : Nat} (hle : r ≤ 2 ^ 53) (hge : s = 0 ∨ 2 ^ 52 ≤ r) :
    unitsOfBits (s * 2 ^ 52 + r) = r * 2 ^ s := by
  unfold unitsOfBits
  by_cases hcarry : r = 2 ^ 53
  · have hexponent : (s * 2 ^ 52 + r) / 2 ^ 52 - 1 = s + 1 := by omega
    have hfraction : (s * 2 ^ 52 + r) % 2 ^ 52 = 0 := by omega
    rw [if_neg (by omega), hexponent, hfraction, hcarry, Nat.pow_succ]
    ring
  · by_cases hsmall : s * 2 ^ 52 + r < 2 ^ 52
    · have hzero : s = 0 := by omega
      rw [if_pos hsmall, hzero]
      omega
    · by_cases hlow : r < 2 ^ 52
      · omega
      · have hexponent : (s * 2 ^ 52 + r) / 2 ^ 52 - 1 = s := by omega
        have hfraction : 2 ^ 52 + (s * 2 ^ 52 + r) % 2 ^ 52 = r := by omega
        rw [if_neg hsmall, hexponent, hfraction]

/-- Rounding adds one part in 2⁵³ at most to a quotient from one on. -/
theorem unitsOfBits_nearestBits_le {num den : Nat} (hden : 0 < den) (h : den ≤ num) :
    unitsOfBits (nearestBits num den) * (den * 2 ^ 53) ≤ num * unitsOfOne * (2 ^ 53 + 1) := by
  obtain ⟨k, hk⟩ : ∃ k, k = 1074 := ⟨_, rfl⟩
  have hlarge : k - 52 ≤ placesLost (num * unitsOfOne) den := by
    apply le_placesLost hden
    rw [show 52 + (k - 52) = k by omega, ← unitsOfOne_eq hk]
    exact Nat.mul_le_mul_right _ h
  have hlow := (placesLost_le (num * unitsOfOne) hden).resolve_left (by omega)
  have hroundLe := divNearestEven_placesLost_le (num * unitsOfOne) hden
  have hroundGe := le_divNearestEven_placesLost (num * unitsOfOne) hden
  have hunits := unitsOfBits_strictMono.monotone
    ((nearestBits_eq num den).trans_le (Nat.min_le_left _ _))
  rw [unitsOfBits_add hroundLe hroundGe] at hunits
  generalize num * unitsOfOne = n at hlow hunits ⊢
  generalize placesLost n den = s at hlow hunits
  have hround := two_mul_divNearestEven_le n (den * 2 ^ s)
  generalize divNearestEven n (den * 2 ^ s) = r at hround hunits
  have hulp : den * 2 ^ s * 2 ^ 52 ≤ n := by
    rw [Nat.mul_assoc, ← Nat.pow_add, Nat.add_comm]
    exact hlow
  calc unitsOfBits (nearestBits num den) * (den * 2 ^ 53) ≤ r * 2 ^ s * (den * 2 ^ 53) :=
        Nat.mul_le_mul_right _ hunits
    _ = 2 * (r * (den * 2 ^ s)) * 2 ^ 52 := by ring
    _ ≤ (2 * n + den * 2 ^ s) * 2 ^ 52 := Nat.mul_le_mul_right _ hround
    _ = n * 2 ^ 53 + den * 2 ^ s * 2 ^ 52 := by ring
    _ ≤ n * 2 ^ 53 + n := Nat.add_le_add_left hulp _
    _ = n * (2 ^ 53 + 1) := by ring

/-- The size bits of at most a power of ten, but for what so many roundings add. -/
def TenPowerLE (roundings e b : Nat) : Prop :=
  unitsOfBits b * (2 ^ 53) ^ roundings ≤ 10 ^ e * unitsOfOne * (2 ^ 53 + 1) ^ roundings

section
variable {b b' i j s t : Nat}

theorem TenPowerLE.productBits (h : TenPowerLE i s b) (h' : TenPowerLE j t b')
    (hb : twoPowBits 0 ≤ b) (hb' : twoPowBits 0 ≤ b') :
    TenPowerLE (i + j + 1) (s + t) (productBits b b') := by
  have hpos : 0 < unitsOfOne * unitsOfOne := Nat.mul_pos unitsOfOne_pos unitsOfOne_pos
  have hone : ∀ {c}, twoPowBits 0 ≤ c → unitsOfOne ≤ unitsOfBits c := by
    intro c hc
    have hunits := unitsOfBits_strictMono.monotone hc
    rwa [unitsOfBits_twoPowBits, Nat.zero_min, Nat.pow_zero, Nat.one_mul] at hunits
  have hround := unitsOfBits_nearestBits_le hpos (Nat.mul_le_mul (hone hb) (hone hb'))
  unfold TenPowerLE at h h' ⊢
  unfold Binary64.productBits
  generalize 2 ^ 53 = q at h h' hround ⊢
  generalize unitsOfBits (nearestBits _ _) = p at hround ⊢
  generalize unitsOfOne = u at h h' hround hpos ⊢
  apply Nat.le_of_mul_le_mul_right _ hpos
  calc p * q ^ (i + j + 1) * (u * u) = p * (u * u * q) * (q ^ i * q ^ j) := by ring
    _ ≤ unitsOfBits b * unitsOfBits b' * u * (q + 1) * (q ^ i * q ^ j) :=
      Nat.mul_le_mul_right _ hround
    _ = unitsOfBits b * q ^ i * (unitsOfBits b' * q ^ j) * (u * (q + 1)) := by ring
    _ ≤ 10 ^ s * u * (q + 1) ^ i * (10 ^ t * u * (q + 1) ^ j) * (u * (q + 1)) :=
      Nat.mul_le_mul_right _ (Nat.mul_le_mul h h')
    _ = 10 ^ (s + t) * u * (q + 1) ^ (i + j + 1) * (u * u) := by ring

/-- There are no more roundings than factors. -/
theorem TenPowerLE.powerBits (h : TenPowerLE s s r) (h' : TenPowerLE t (t + 1) a)
    (hr : twoPowBits 0 ≤ r) (ha : twoPowBits 0 ≤ a) (he : e < 2 ^ n) :
    TenPowerLE (s + (t + 1) * e) (s + (t + 1) * e) (powerBits n r a e) := by
  have hpower := powerBits_induction (P := fun s b => TenPowerLE s s b ∧ twoPowBits 0 ≤ b)
    (Q := fun t b => (∃ i, i + 1 = t ∧ TenPowerLE i t b) ∧ twoPowBits 0 ≤ b) ?_ ?_ ⟨h, hr⟩
    ⟨⟨t, rfl, h'⟩, ha⟩ he
  · exact hpower.1
  · rintro t a ⟨⟨i, rfl, h⟩, ha⟩
    exact ⟨⟨i + i + 1, by omega, h.productBits h ha ha⟩, one_le_productBits ha ha⟩
  · rintro s t r a ⟨h, hr⟩ ⟨⟨i, rfl, h'⟩, ha⟩
    exact ⟨h.productBits h' hr ha, one_le_productBits hr ha⟩

end

/-! ### Powers of ten -/

/-- The size bits of ten. -/
def tenBits : Nat := 0x4024000000000000

theorem unitsOfBits_tenBits : unitsOfBits tenBits = 10 * unitsOfOne := by decide +kernel

/-- The size bits of a power of ten. -/
def tenPowerBits (e : Nat) : Nat := powerBits 32 (twoPowBits 0) tenBits e

theorem one_eq : (1 : Float) = ofSignBits false (twoPowBits 0) := Float.toBits_inj.mp (by decide)

theorem powerOfTen_eq (k : Int32) : powerOfTen k =
    if k < 0 then 1 / ofSignBits false (tenPowerBits k.toInt.natAbs)
    else ofSignBits false (tenPowerBits k.toInt.natAbs) := by
  have hten : (10 : Float) = ofSignBits false tenBits := Float.toBits_inj.mp (by decide)
  have hpower : squareMultiply 32 1 10 k.toInt.natAbs =
      ofSignBits false (tenPowerBits k.toInt.natAbs) := by
    rw [one_eq, hten]
    exact squareMultiply_ofSignBits (Nat.le_refl _) (by decide) (by decide) (by decide)
  rw [powerOfTen, hpower]

/-- Up to 10²² powers of ten are exact: their odd factors are below 2⁵³, and no product is
rounded. -/
theorem unitsOfBits_tenPowerBits (he : e ≤ 22) :
    unitsOfBits (tenPowerBits e) = 10 ^ e * unitsOfOne := by
  have hproduct : ∀ {s t b b'}, (s ≤ 22 → unitsOfBits b = 10 ^ s * unitsOfOne) →
      (t ≤ 22 → unitsOfBits b' = 10 ^ t * unitsOfOne) → s + t ≤ 22 →
      unitsOfBits (productBits b b') = 10 ^ (s + t) * unitsOfOne := by
    intro s t b b' hb hb' hst
    have hodd : 5 ^ (s + t) < 2 ^ 53 :=
      lt_of_le_of_lt (Nat.pow_le_pow_right (by decide) hst) (by decide)
    obtain ⟨c, hc, hunits⟩ := exists_bits_mul_two_pow hodd (j := s + t) (by omega)
    rw [← Nat.mul_pow, show 5 * 2 = 10 from rfl] at hunits
    rw [hunits, productBits, hb (by omega), hb' (by omega),
      nearestBits_of_units (Nat.mul_pos unitsOfOne_pos unitsOfOne_pos) hc.le]
    rw [← hunits]
    ring
  have hpower := powerBits_induction (P := fun s b => s ≤ 22 → unitsOfBits b = 10 ^ s * unitsOfOne)
    (Q := fun t b => t ≤ 22 → unitsOfBits b = 10 ^ t * unitsOfOne) (s := 0) (t := 1) (n := 32)
    (r := twoPowBits 0) (a := tenBits) (e := e) (fun ha => hproduct ha ha) hproduct ?_ ?_ (by omega)
  · rw [Nat.zero_add, Nat.one_mul] at hpower
    exact hpower he
  · intro _
    rw [unitsOfBits_twoPowBits, Nat.zero_min, Nat.pow_zero]
  · intro _
    rw [unitsOfBits_tenBits, Nat.pow_one]

/-- Up to 10³⁰⁸ powers of ten are finite: the roundings do not add up to what is missing. -/
theorem tenPowerBits_lt (he : e ≤ 308) : tenPowerBits e < infinityBits := by
  obtain ⟨k, hk⟩ : ∃ k, k = 308 := ⟨_, rfl⟩
  have hmissing : (10 * (2 ^ 53 + 1)) ^ k * unitsOfOne <
      unitsOfBits infinityBits * (2 ^ 53) ^ k := by
    subst hk
    decide +kernel
  have hone : TenPowerLE 0 0 (twoPowBits 0) := by
    unfold TenPowerLE
    rw [unitsOfBits_twoPowBits, Nat.zero_min]
  have hten : TenPowerLE 0 (0 + 1) tenBits := by
    unfold TenPowerLE
    rw [unitsOfBits_tenBits, Nat.zero_add, Nat.pow_one]
  have hpower := hone.powerBits hten (Nat.le_refl _) (by decide) (n := 32) (e := e) (by omega)
  by_contra hnot
  have hunits := unitsOfBits_strictMono.monotone (Nat.le_of_not_lt hnot)
  unfold TenPowerLE at hpower
  rw [Nat.zero_add, Nat.zero_add, Nat.one_mul, ← tenPowerBits] at hpower
  generalize unitsOfBits (tenPowerBits e) = p at hpower hunits
  generalize unitsOfBits infinityBits = top at hmissing hunits
  generalize 2 ^ 53 = q at hmissing hpower
  apply Nat.not_le_of_gt hmissing
  obtain ⟨d, hd⟩ := Nat.exists_eq_add_of_le (hk ▸ he)
  calc top * q ^ k ≤ p * q ^ k := Nat.mul_le_mul_right _ hunits
    _ = p * q ^ e * q ^ d := by rw [hd, Nat.pow_add, Nat.mul_assoc]
    _ ≤ 10 ^ e * unitsOfOne * (q + 1) ^ e * q ^ d := Nat.mul_le_mul_right _ hpower
    _ ≤ 10 ^ e * unitsOfOne * (q + 1) ^ e * (10 * (q + 1)) ^ d :=
      Nat.mul_le_mul_left _ (Nat.pow_le_pow_left (by omega) d)
    _ = (10 * (q + 1)) ^ k * unitsOfOne := by
      rw [hd, Nat.pow_add, Nat.mul_pow 10 (q + 1) e]
      ring

/-- Sixteen factors are above 2⁵³, and 128 of them above 2⁴²⁵. -/
theorem le_tenPowerBits (he : e < 2 ^ 32) :
    twoPowBits (3 * (e % 16) + 53 * (e / 16 % 8) + 425 * (e / 128)) ≤ tenPowerBits e := by
  have hlow : e % 128 % 16 = e % 16 := by omega
  have hmiddle : e % 128 / 16 = e / 16 % 8 := by omega
  unfold tenPowerBits
  rw [powerBits_add 7 25]
  apply le_powerBits _ (by decide +kernel) (by omega)
  rw [powerBits_add 4 3, show 2 ^ 7 = 128 from rfl, show 2 ^ 4 = 16 from rfl, hlow, hmiddle]
  apply le_powerBits _ (by decide +kernel) (by omega)
  have hfirst := le_powerBits (n := 4) (Nat.le_refl (twoPowBits 0)) (t := 3) (a := tenBits)
    (e := e % 16) (by decide) (by omega)
  rwa [Nat.zero_add] at hfirst

/-- From 10³⁰⁹ on powers of ten are infinite. -/
theorem tenPowerBits_eq_infinityBits (hlow : 309 ≤ e) (he : e < 2 ^ 32) :
    tenPowerBits e = infinityBits := by
  have hsum : 1024 ≤ 3 * (e % 16) + 53 * (e / 16 % 8) + 425 * (e / 128) := by
    by_cases hfirst : 384 ≤ e
    · omega
    · have hhigh : e / 128 = 2 := by omega
      by_cases hsecond : 320 ≤ e
      · have hmiddle : 4 ≤ e / 16 % 8 := by omega
        omega
      · have hmiddle : e / 16 = 19 := by omega
        omega
  have hsaturated : infinityBits ≤
      twoPowBits (3 * (e % 16) + 53 * (e / 16 % 8) + 425 * (e / 128)) := by
    unfold twoPowBits infinityBits
    omega
  exact Nat.le_antisymm (powerBits_le_infinityBits (twoPowBits_le_infinityBits 0) he)
    (hsaturated.trans (le_tenPowerBits he))

end TableImport.Binary64
