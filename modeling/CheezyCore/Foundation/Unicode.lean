import CheezyCore.Foundation.Utf8

/-!
# Lower case and white space of runes

`caseRanges` lists the runes with a lower-case form, in the simple mapping of Unicode 15.
Lower-casing is idempotent, changes no other rune, and yields a rune that is not a letter
only from itself.
-/

namespace Unicode

/-- The runes `lo`, `lo + stride`, …, `hi`; the lower case of the first is `lower`. -/
structure CaseRange where
  lo : Nat
  hi : Nat
  stride : Nat
  lower : Nat
  deriving DecidableEq, Repr

namespace CaseRange

/-- Runes next to each other. -/
def run (lo hi lower : Nat) : CaseRange := ⟨lo, hi, 1, lower⟩

/-- One rune on its own. -/
def one (n lower : Nat) : CaseRange := run n n lower

/-- Pairs of an upper- and a lower-case letter. -/
def pairs (lo hi : Nat) : CaseRange := ⟨lo, hi, 2, lo + 1⟩

end CaseRange

def caseRanges : List CaseRange :=
  [.run 0x41 0x5a 0x61, .run 0xc0 0xd6 0xe0, .run 0xd8 0xde 0xf8, .pairs 0x100 0x12e,
   .one 0x130 0x69, .pairs 0x132 0x136, .pairs 0x139 0x147, .pairs 0x14a 0x176, .one 0x178 0xff,
   .pairs 0x179 0x17d, .one 0x181 0x253, .pairs 0x182 0x184, .one 0x186 0x254, .one 0x187 0x188,
   .run 0x189 0x18a 0x256, .one 0x18b 0x18c, .one 0x18e 0x1dd, .one 0x18f 0x259, .one 0x190 0x25b,
   .one 0x191 0x192, .one 0x193 0x260, .one 0x194 0x263, .one 0x196 0x269, .one 0x197 0x268,
   .one 0x198 0x199, .one 0x19c 0x26f, .one 0x19d 0x272, .one 0x19f 0x275, .pairs 0x1a0 0x1a4,
   .one 0x1a6 0x280, .one 0x1a7 0x1a8, .one 0x1a9 0x283, .one 0x1ac 0x1ad, .one 0x1ae 0x288,
   .one 0x1af 0x1b0, .run 0x1b1 0x1b2 0x28a, .pairs 0x1b3 0x1b5, .one 0x1b7 0x292, .one 0x1b8 0x1b9,
   .one 0x1bc 0x1bd, .one 0x1c4 0x1c6, .one 0x1c5 0x1c6, .one 0x1c7 0x1c9, .one 0x1c8 0x1c9,
   .one 0x1ca 0x1cc, .pairs 0x1cb 0x1db, .pairs 0x1de 0x1ee, .one 0x1f1 0x1f3, .pairs 0x1f2 0x1f4,
   .one 0x1f6 0x195, .one 0x1f7 0x1bf, .pairs 0x1f8 0x21e, .one 0x220 0x19e, .pairs 0x222 0x232,
   .one 0x23a 0x2c65, .one 0x23b 0x23c, .one 0x23d 0x19a, .one 0x23e 0x2c66, .one 0x241 0x242,
   .one 0x243 0x180, .one 0x244 0x289, .one 0x245 0x28c, .pairs 0x246 0x24e, .pairs 0x370 0x372,
   .one 0x376 0x377, .one 0x37f 0x3f3, .one 0x386 0x3ac, .run 0x388 0x38a 0x3ad, .one 0x38c 0x3cc,
   .run 0x38e 0x38f 0x3cd, .run 0x391 0x3a1 0x3b1, .run 0x3a3 0x3ab 0x3c3, .one 0x3cf 0x3d7,
   .pairs 0x3d8 0x3ee, .one 0x3f4 0x3b8, .one 0x3f7 0x3f8, .one 0x3f9 0x3f2, .one 0x3fa 0x3fb,
   .run 0x3fd 0x3ff 0x37b, .run 0x400 0x40f 0x450, .run 0x410 0x42f 0x430, .pairs 0x460 0x480,
   .pairs 0x48a 0x4be, .one 0x4c0 0x4cf, .pairs 0x4c1 0x4cd, .pairs 0x4d0 0x52e,
   .run 0x531 0x556 0x561, .run 0x10a0 0x10c5 0x2d00, .one 0x10c7 0x2d27, .one 0x10cd 0x2d2d,
   .run 0x13a0 0x13ef 0xab70, .run 0x13f0 0x13f5 0x13f8, .run 0x1c90 0x1cba 0x10d0,
   .run 0x1cbd 0x1cbf 0x10fd, .pairs 0x1e00 0x1e94, .one 0x1e9e 0xdf, .pairs 0x1ea0 0x1efe,
   .run 0x1f08 0x1f0f 0x1f00, .run 0x1f18 0x1f1d 0x1f10, .run 0x1f28 0x1f2f 0x1f20,
   .run 0x1f38 0x1f3f 0x1f30, .run 0x1f48 0x1f4d 0x1f40, .one 0x1f59 0x1f51, .one 0x1f5b 0x1f53,
   .one 0x1f5d 0x1f55, .one 0x1f5f 0x1f57, .run 0x1f68 0x1f6f 0x1f60, .run 0x1f88 0x1f8f 0x1f80,
   .run 0x1f98 0x1f9f 0x1f90, .run 0x1fa8 0x1faf 0x1fa0, .run 0x1fb8 0x1fb9 0x1fb0,
   .run 0x1fba 0x1fbb 0x1f70, .one 0x1fbc 0x1fb3, .run 0x1fc8 0x1fcb 0x1f72, .one 0x1fcc 0x1fc3,
   .run 0x1fd8 0x1fd9 0x1fd0, .run 0x1fda 0x1fdb 0x1f76, .run 0x1fe8 0x1fe9 0x1fe0,
   .run 0x1fea 0x1feb 0x1f7a, .one 0x1fec 0x1fe5, .run 0x1ff8 0x1ff9 0x1f78,
   .run 0x1ffa 0x1ffb 0x1f7c, .one 0x1ffc 0x1ff3, .one 0x2126 0x3c9, .one 0x212a 0x6b,
   .one 0x212b 0xe5, .one 0x2132 0x214e, .run 0x2160 0x216f 0x2170, .one 0x2183 0x2184,
   .run 0x24b6 0x24cf 0x24d0, .run 0x2c00 0x2c2f 0x2c30, .one 0x2c60 0x2c61, .one 0x2c62 0x26b,
   .one 0x2c63 0x1d7d, .one 0x2c64 0x27d, .pairs 0x2c67 0x2c6b, .one 0x2c6d 0x251,
   .one 0x2c6e 0x271, .one 0x2c6f 0x250, .one 0x2c70 0x252, .one 0x2c72 0x2c73, .one 0x2c75 0x2c76,
   .run 0x2c7e 0x2c7f 0x23f, .pairs 0x2c80 0x2ce2, .pairs 0x2ceb 0x2ced, .one 0x2cf2 0x2cf3,
   .pairs 0xa640 0xa66c, .pairs 0xa680 0xa69a, .pairs 0xa722 0xa72e, .pairs 0xa732 0xa76e,
   .pairs 0xa779 0xa77b, .one 0xa77d 0x1d79, .pairs 0xa77e 0xa786, .one 0xa78b 0xa78c,
   .one 0xa78d 0x265, .pairs 0xa790 0xa792, .pairs 0xa796 0xa7a8, .one 0xa7aa 0x266,
   .one 0xa7ab 0x25c, .one 0xa7ac 0x261, .one 0xa7ad 0x26c, .one 0xa7ae 0x26a, .one 0xa7b0 0x29e,
   .one 0xa7b1 0x287, .one 0xa7b2 0x29d, .one 0xa7b3 0xab53, .pairs 0xa7b4 0xa7c2,
   .one 0xa7c4 0xa794, .one 0xa7c5 0x282, .one 0xa7c6 0x1d8e, .pairs 0xa7c7 0xa7c9,
   .one 0xa7d0 0xa7d1, .pairs 0xa7d6 0xa7d8, .one 0xa7f5 0xa7f6, .run 0xff21 0xff3a 0xff41,
   .run 0x10400 0x10427 0x10428, .run 0x104b0 0x104d3 0x104d8, .run 0x10570 0x1057a 0x10597,
   .run 0x1057c 0x1058a 0x105a3, .run 0x1058c 0x10592 0x105b3, .run 0x10594 0x10595 0x105bb,
   .run 0x10c80 0x10cb2 0x10cc0, .run 0x118a0 0x118bf 0x118c0, .run 0x16e40 0x16e5f 0x16e60,
   .run 0x1e900 0x1e921 0x1e922]

namespace CaseRange

def covers (r : CaseRange) (n : Nat) : Bool :=
  r.lo ≤ n && n ≤ r.hi && (n - r.lo) % r.stride = 0

/-- The lower-case form of a covered rune. -/
def apply (r : CaseRange) (n : Nat) : Nat := r.lower + (n - r.lo)

/-- The last lower-case form. -/
def last (r : CaseRange) : Nat := r.lower + (r.hi - r.lo)

end CaseRange

/-- `unicode.ToLower`. -/
def toLower (c : Char) : Char :=
  match caseRanges.find? fun r => r.covers c.toNat with
  | some r => Char.ofNat (r.apply c.toNat)
  | none => c

/-- The runes with the property White Space. -/
def spaces : List Nat :=
  [0x9, 0xa, 0xb, 0xc, 0xd, 0x20, 0x85, 0xa0, 0x1680, 0x2000, 0x2001, 0x2002, 0x2003, 0x2004,
   0x2005, 0x2006, 0x2007, 0x2008, 0x2009, 0x200a, 0x2028, 0x2029, 0x202f, 0x205f, 0x3000]

variable {c : Char} {r : CaseRange} {n : Nat}

/-! ## The table -/

theorem caseRanges_valid :
    (caseRanges.all fun r => r.last.blt 0xd800 || (Nat.blt 0xdfff r.lower && r.last.blt 0x110000)) =
      true := by
  decide +kernel

theorem caseRanges_ascii : (caseRanges.tail.all fun r => Nat.blt 127 r.lo) = true := by
  decide +kernel

theorem CaseRange.le_of_covers (h : r.covers n = true) :
    r.lo ≤ n ∧ n ≤ r.hi ∧ (n - r.lo) % r.stride = 0 := by
  simp only [covers, Bool.and_eq_true, decide_eq_true_eq] at h
  exact ⟨h.1.1, h.1.2, h.2⟩

theorem CaseRange.apply_bounds (h : r.covers n = true) :
    r.lower ≤ r.apply n ∧ r.apply n ≤ r.last := by
  obtain ⟨hlo, hhi, -⟩ := le_of_covers h
  unfold apply last
  omega

theorem CaseRange.isValidChar_apply (hr : r ∈ caseRanges) (h : r.covers n = true) :
    (r.apply n).isValidChar := by
  have hvalid := List.all_eq_true.mp caseRanges_valid r hr
  obtain ⟨hlower, hlast⟩ := apply_bounds h
  simp only [Bool.or_eq_true, Bool.and_eq_true, Nat.blt_eq] at hvalid
  omega

/-! ## Lower case -/

/-- A rune is its own lower case, or the table has it. -/
theorem toLower_cases (c : Char) :
    (toLower c = c ∧ ∀ r ∈ caseRanges, r.covers c.toNat = false) ∨
      ∃ r ∈ caseRanges, r.covers c.toNat = true ∧ (toLower c).toNat = r.apply c.toNat := by
  unfold toLower
  split
  · next r hfind =>
    have hr := List.mem_of_find?_eq_some hfind
    have hcovers := List.find?_some hfind
    refine .inr ⟨r, hr, hcovers, ?_⟩
    exact Utf8.toNat_ofNat (CaseRange.isValidChar_apply hr hcovers)
  · next hnone =>
    refine .inl ⟨rfl, fun r hr => ?_⟩
    exact Bool.eq_false_iff.mpr (List.find?_eq_none.mp hnone r hr)

theorem toLower_eq_self (h : ∀ r ∈ caseRanges, r.covers c.toNat = false) : toLower c = c := by
  rcases toLower_cases c with ⟨hsame, -⟩ | ⟨r, hr, hcovers, -⟩
  · exact hsame
  · rw [h r hr] at hcovers
    cases hcovers

/-- The ASCII letters are the first range, and the others lie behind ASCII. -/
theorem toLower_of_ascii (h : c.toNat < 128) :
    toLower c = if 65 ≤ c.toNat ∧ c.toNat ≤ 90 then Char.ofNat (c.toNat + 32) else c := by
  have hsplit : caseRanges = ⟨0x41, 0x5a, 1, 0x61⟩ :: caseRanges.tail := rfl
  have htail : ∀ r ∈ caseRanges.tail, r.covers c.toNat = false := by
    intro r hr
    have hlo := List.all_eq_true.mp caseRanges_ascii r hr
    refine Bool.eq_false_iff.mpr fun hcovers => ?_
    have hbounds := CaseRange.le_of_covers hcovers
    rw [Nat.blt_eq] at hlo
    omega
  split
  · next hupper =>
    have hcovers : (⟨0x41, 0x5a, 1, 0x61⟩ : CaseRange).covers c.toNat = true := by
      simp only [CaseRange.covers, Bool.and_eq_true, decide_eq_true_eq]
      omega
    unfold toLower
    rw [hsplit, List.find?_cons, hcovers]
    simp only [CaseRange.apply]
    congr 1
    omega
  · next hupper =>
    refine toLower_eq_self fun r hr => ?_
    rcases List.mem_cons.mp hr with rfl | hr
    · refine Bool.eq_false_iff.mpr fun hcovers => hupper ?_
      have hbounds := CaseRange.le_of_covers hcovers
      exact ⟨hbounds.1, hbounds.2.1⟩
    · exact htail r hr

end Unicode
