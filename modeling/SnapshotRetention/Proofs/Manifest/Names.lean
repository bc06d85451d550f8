import Mathlib.Data.List.Induction
import SnapshotRetention.Proofs.Writer.History

/-!
# Which names are taken for manifests

A name is read as naming a generation exactly if it is the name of that generation's manifest, but
for zeros in front of the number (`generationOf?_eq_some_iff`). With such zeros it is the name of no
manifest (`IsPadded.ne_nameOf`).

Manifests are read under their own names, so that for a name with zeros in front another artifact
is read. What is read are the names that were taken for manifests, each once, exactly if none of
them has such zeros (`perm_generationsOf_iff`). Beside the manifest itself such a name makes its
generation come twice, and nothing can be read (`readCommits_of_padded_beside`). The main result,
`manifests_named_up_to_zeros`, puts this together for a store.
-/

namespace SnapshotRetention

namespace Manifest

variable {name : String} {g g' : Generation} {digits : List Char} {zeros : Nat}

/-! ## Digits -/

/-- A digit is what its value is written as. -/
theorem exists_digitChar {c : Char} (h : c.isDigit = true) : ∃ d < 10, c = d.digitChar := by
  have hbounds : 48 ≤ c.toNat ∧ c.toNat ≤ 57 := Char.isDigit_iff_toNat.mp h
  refine ⟨c.toNat - 48, by omega, ?_⟩
  have hall : ∀ d < 10, (Nat.digitChar d).toNat = d + 48 := by decide
  have hvalue := hall (c.toNat - 48) (by omega)
  exact Char.toNat_inj.mp (by omega)

/-- Digits are some zeros and then the digits of the number that they stand for. -/
theorem exists_zeros_append (hne : digits ≠ []) (hdigits : digits.all Char.isDigit = true) :
    ∃ zeros, digits =
      List.replicate zeros '0' ++ Nat.toDigits 10 (Nat.ofDigitChars 10 digits 0) := by
  -- the number that the digits so far stand for decides whether the next one is the first to count
  induction digits using List.reverseRecOn with
  | nil => exact absurd rfl hne
  | append_singleton front c ih =>
    rw [List.all_append, Bool.and_eq_true] at hdigits
    obtain ⟨d, hd, rfl⟩ := exists_digitChar (List.all_eq_true.mp hdigits.2 c List.mem_cons_self)
    have hvalue : Nat.ofDigitChars 10 (front ++ [d.digitChar]) 0 =
        10 * Nat.ofDigitChars 10 front 0 + d := by
      rw [Nat.ofDigitChars_append, Nat.ofDigitChars_cons_digitChar_of_lt_ten hd,
        Nat.ofDigitChars_nil]
    rw [hvalue]
    by_cases hfront : front = []
    · subst hfront
      refine ⟨0, ?_⟩
      rw [Nat.ofDigitChars_nil, Nat.mul_zero, Nat.zero_add, Nat.toDigits_of_lt_base hd]
      rfl
    · obtain ⟨zeros, hzeros⟩ := ih hfront hdigits.1
      rcases Nat.eq_zero_or_pos (Nat.ofDigitChars 10 front 0) with hzero | hpos
      · refine ⟨zeros + 1, ?_⟩
        rw [hzero, Nat.toDigits_zero, ← List.replicate_succ'] at hzeros
        rw [hzero, Nat.mul_zero, Nat.zero_add, Nat.toDigits_of_lt_base hd]
        exact congrArg (· ++ [d.digitChar]) hzeros
      · refine ⟨zeros, ?_⟩
        rw [← Nat.toDigits_append_toDigits (by decide) hpos hd, Nat.toDigits_of_lt_base hd,
          ← List.append_assoc, ← hzeros]

theorem generationOfDigits?_eq_some_iff : generationOfDigits? digits = some g ↔
    ∃ zeros, digits = List.replicate zeros '0' ++ Nat.toDigits 10 g.number.toNat := by
  unfold generationOfDigits?
  constructor
  · intro h
    split at h
    next hdigits =>
      dsimp only at h
      split at h
      next hlt =>
        cases h
        obtain ⟨zeros, hzeros⟩ := exists_zeros_append hdigits.1 hdigits.2
        refine ⟨zeros, ?_⟩
        rw [UInt64.toNat_ofNat_of_lt' hlt]
        exact hzeros
      next => cases h
    next => cases h
  · rintro ⟨zeros, rfl⟩
    have hne : List.replicate zeros '0' ++ Nat.toDigits 10 g.number.toNat ≠ [] :=
      List.append_ne_nil_of_right_ne_nil _ Nat.toDigits_ne_nil
    have hdigits : (List.replicate zeros '0' ++ Nat.toDigits 10 g.number.toNat).all
        Char.isDigit = true := by
      refine List.all_eq_true.mpr fun c hc => ?_
      rcases List.mem_append.mp hc with hc | hc
      · rw [List.eq_of_mem_replicate hc]
        rfl
      · exact Nat.isDigit_of_mem_toDigits (by decide) (by decide) hc
    have hvalue : Nat.ofDigitChars 10
        (List.replicate zeros '0' ++ Nat.toDigits 10 g.number.toNat) 0 = g.number.toNat := by
      rw [Nat.ofDigitChars_append, Nat.ofDigitChars_replicate_zero, Nat.mul_zero,
        Nat.ofDigitChars_ten_toDigits]
    rw [if_pos ⟨hne, hdigits⟩, hvalue, if_pos g.number.toNat_lt, UInt64.ofNat_toNat]

/-! ## Names with zeros -/

/-- The name of the manifest of a generation, with some zeros in front of the number. -/
def paddedName (zeros : Nat) (g : Generation) : String :=
  reservedStart ++ String.ofList (List.replicate zeros '0') ++ toString g.number

theorem paddedName_zero (g : Generation) : paddedName 0 g = nameOf g := by
  unfold paddedName nameOf
  rw [List.replicate_zero, String.ofList_nil, String.append_empty]

theorem toList_paddedName (zeros : Nat) (g : Generation) : (paddedName zeros g).toList =
    reservedStart.toList ++ (List.replicate zeros '0' ++ Nat.toDigits 10 g.number.toNat) := by
  unfold paddedName
  rw [String.append_assoc, String.toList_append, String.toList_append, String.toList_ofList]
  congr 2
  show (toString g.number.toNat).toList = _
  rw [Nat.toString_eq_ofList_toDigits, String.toList_ofList]

/-- A name is read as naming a generation if it is that of its manifest but for zeros in front. -/
theorem generationOf?_eq_some_iff : generationOf? name = some g ↔
    ∃ zeros, name = paddedName zeros g := by
  have hlength : reservedStart.length = reservedStart.toList.length := rfl
  unfold generationOf? isReserved
  constructor
  · intro h
    split at h
    next hreserved =>
      obtain ⟨rest, hrest⟩ := List.isPrefixOf_iff_prefix.mp hreserved
      rw [← hrest, hlength, List.drop_left] at h
      obtain ⟨zeros, rfl⟩ := generationOfDigits?_eq_some_iff.mp h
      exact ⟨zeros, String.toList_inj.mp (hrest.symm.trans (toList_paddedName zeros g).symm)⟩
    next => cases h
  · rintro ⟨zeros, rfl⟩
    have hprefix := List.prefix_append reservedStart.toList
      (List.replicate zeros '0' ++ Nat.toDigits 10 g.number.toNat)
    rw [toList_paddedName, if_pos (List.isPrefixOf_iff_prefix.mpr hprefix), hlength,
      List.drop_left]
    exact generationOfDigits?_eq_some_iff.mpr ⟨zeros, rfl⟩

theorem generationOf?_paddedName (zeros : Nat) (g : Generation) :
    generationOf? (paddedName zeros g) = some g :=
  generationOf?_eq_some_iff.mpr ⟨zeros, rfl⟩

/-- No manifest has a name with zeros in front of its number. -/
theorem paddedName_eq_nameOf_iff : paddedName zeros g = nameOf g' ↔ zeros = 0 ∧ g = g' := by
  constructor
  · intro h
    have hboth := congrArg generationOf? h
    rw [generationOf?_paddedName, generationOf?_nameOf] at hboth
    obtain rfl := Option.some.inj hboth
    have hlength := congrArg List.length (congrArg String.toList h)
    rw [toList_paddedName, toList_nameOf, List.length_append, List.length_append,
      List.length_append, List.length_replicate] at hlength
    exact ⟨by omega, rfl⟩
  · rintro ⟨rfl, rfl⟩
    exact paddedName_zero g

/-- Whether a name is that of a generation's manifest but for zeros in front of the number. -/
def IsPadded (g : Generation) (name : String) : Prop :=
  ∃ zeros, 0 < zeros ∧ name = paddedName zeros g

theorem IsPadded.generationOf? (h : IsPadded g name) : generationOf? name = some g := by
  obtain ⟨zeros, -, rfl⟩ := h
  exact generationOf?_paddedName zeros g

theorem IsPadded.ne_nameOf (h : IsPadded g name) (g' : Generation) : name ≠ nameOf g' := by
  obtain ⟨zeros, hpos, rfl⟩ := h
  exact fun heq => Nat.ne_of_gt hpos (paddedName_eq_nameOf_iff.mp heq).1

/-- The names that are read as naming a generation. -/
theorem generationOf?_eq_some_iff_or : Manifest.generationOf? name = some g ↔
    name = nameOf g ∨ IsPadded g name := by
  constructor
  · intro h
    obtain ⟨zeros, rfl⟩ := generationOf?_eq_some_iff.mp h
    rcases Nat.eq_zero_or_pos zeros with rfl | hpos
    · exact Or.inl (paddedName_zero g)
    · exact Or.inr ⟨zeros, hpos, rfl⟩
  · rintro (rfl | hpadded)
    · exact generationOf?_nameOf g
    · exact hpadded.generationOf?

end Manifest

/-! ## What is read of a store -/

namespace Store

open Manifest (IsPadded nameOf generationOf?)

variable {s s' : Store} {ms : List Manifest} {names : List String} {g : Generation} {q : String}

/-- The names under which manifests are read are those that are taken for manifests, unless one of
these has zeros in front of its number. -/
theorem perm_generationsOf_iff : ((generationsOf names).map nameOf).Perm
    (names.filter namesGeneration) ↔ ∀ q ∈ names, ∀ g, ¬IsPadded g q := by
  have hperm : ((generationsOf names).map nameOf).Perm
      ((names.filterMap generationOf?).map nameOf) := (List.mergeSort_perm _ _).map nameOf
  constructor
  · intro h q hq g hpadded
    have hnames : namesGeneration q = true := by
      unfold namesGeneration
      rw [hpadded.generationOf?]
      rfl
    obtain ⟨g', -, hg'⟩ := List.mem_map.mp (h.mem_iff.mpr (List.mem_filter.mpr ⟨hq, hnames⟩))
    exact hpadded.ne_nameOf g' hg'.symm
  · intro h
    have hsame : (names.filterMap generationOf?).map nameOf = names.filter namesGeneration := by
      rw [List.map_filterMap, ← List.filterMap_eq_filter]
      refine List.filterMap_congr fun q hq => ?_
      show (generationOf? q).map nameOf = if (generationOf? q).isSome then some q else none
      cases hg : generationOf? q with
      | none => rfl
      | some g =>
        rcases Manifest.generationOf?_eq_some_iff_or.mp hg with rfl | hpadded
        · rfl
        · exact absurd hpadded (h q hq g)
    exact hsame ▸ hperm

theorem not_isPadded_of_readCommits (h : s.readCommits = .ok ms) (hq : q ∈ s.names)
    (g : Generation) : ¬IsPadded g q := by
  intro hpadded
  have hnames : namesGeneration q = true := by
    unfold namesGeneration
    rw [hpadded.generationOf?]
    rfl
  obtain ⟨m, -, hm⟩ := named_of_readCommits h hq hnames
  exact hpadded.ne_nameOf m.generation hm.symm

theorem follows_self (v : Version) : follows (some v) v = false :=
  decide_eq_false (UInt64.lt_irrefl v.number)

/-- Manifests are read up to the first that comes twice. -/
theorem readManifests_twice {previous : Option Version} {front rest : List Manifest} {m : Manifest}
    {gs : List Generation}
    (hread : ∀ m' ∈ front ++ m :: rest, s.readManifest m'.generation = .ok m')
    (hfollows : ∀ m' ∈ front ++ m :: rest, follows previous m'.version = true)
    (hversions : ((front ++ m :: rest).map Manifest.version).Pairwise (· < ·)) :
    s.readManifests previous (front.map Manifest.generation ++
      m.generation :: m.generation :: gs) = .error (.outOfOrder m.generation) := by
  induction front generalizing previous with
  | nil =>
    have hm := hread m List.mem_cons_self
    simp only [List.map_nil, List.nil_append, readManifests, hm,
      hfollows m List.mem_cons_self, follows_self, Bool.not_true, Bool.not_false, if_true,
      Bool.false_eq_true, if_false]
  | cons m' front ih =>
    obtain ⟨hlater, hrest⟩ := List.pairwise_cons.mp hversions
    have hfollows' : ∀ m'' ∈ front ++ m :: rest, follows (some m'.version) m''.version = true :=
      fun m'' hm'' => decide_eq_true (hlater m''.version (List.mem_map_of_mem hm''))
    have hlast := ih (fun m'' hm'' => hread m'' (List.mem_cons_of_mem _ hm'')) hfollows' hrest
    rw [List.map_cons, List.cons_append]
    unfold readManifests
    rw [hread m' List.mem_cons_self]
    dsimp only
    rw [hfollows m' List.mem_cons_self, hlast]
    rfl

/-- A name with zeros in front, beside the manifest itself, makes its generation come twice. -/
theorem readCommits_of_padded_beside (h : s.readCommits = .ok ms) {m : Manifest} (hm : m ∈ ms)
    (hpadded : IsPadded m.generation q) (hnames : s'.names.Perm (q :: s.names))
    (hlist : s'.list = .ok s'.names) (hread : ∀ m ∈ ms, s'.read m.name = s.read m.name) :
    s'.readCommits = .error (.outOfOrder m.generation) := by
  obtain ⟨front, rest, rfl⟩ := List.append_of_mem hm
  have hmanifest : ∀ m' ∈ front ++ m :: rest, s'.readManifest m'.generation = .ok m' := by
    intro m' hm'
    rw [← readManifest_of_readCommits h m' hm']
    unfold readManifest
    rw [show nameOf m'.generation = m'.name from rfl, hread m' hm']
  have hgenerations : generationsOf s'.names = front.map Manifest.generation ++
      m.generation :: m.generation :: rest.map Manifest.generation := by
    have hfound := (List.mergeSort_perm (s.names.filterMap generationOf?) Generation.le).symm
    have hsame := readCommits_generations h
    have hsorted := hsame ▸ pairwise_generationsOf s.names
    unfold generationsOf at hsame
    rw [← hsame, List.map_append, List.map_cons] at hfound
    rw [List.map_append, List.map_cons] at hsorted
    refine generationsOf_eq ?_ ?_
    · refine (hnames.filterMap generationOf?).trans ?_
      rw [List.filterMap_cons, hpadded.generationOf?]
      exact (hfound.cons _).trans List.perm_middle.symm
    · -- one more of a generation that is there comes right before it
      obtain ⟨hfront, hback, hboth⟩ := List.pairwise_append.mp hsorted
      refine List.pairwise_append.mpr ⟨hfront, List.pairwise_cons.mpr ⟨?_, hback⟩, ?_⟩
      · intro g hg
        rcases List.mem_cons.mp hg with rfl | hg
        · exact decide_eq_true (UInt64.le_refl _)
        · exact (List.pairwise_cons.mp hback).1 g hg
      · intro g hg g' hg'
        rcases List.mem_cons.mp hg' with rfl | hg'
        · exact hboth g hg _ List.mem_cons_self
        · exact hboth g hg g' hg'
  unfold readCommits
  rw [hlist]
  dsimp only
  rw [hgenerations]
  exact readManifests_twice hmanifest (fun _ _ => rfl) (readCommits_ok h).1

/-! ## Which names are taken for manifests -/

/-- A name is taken for the manifest of a generation if it is its name, or its name with zeros in
front of the number, which no manifest has. The manifests that are read of a store are those whose
names were taken for manifests, each under its own name, if no name in the store has such zeros;
if one has, other artifacts than these are wanted, and reading the store fails. -/
theorem manifests_named_up_to_zeros (s : Store) :
    (∀ name g, generationOf? name = some g ↔ name = nameOf g ∨ IsPadded g name) ∧
      (∀ name g, IsPadded g name → ∀ g', name ≠ nameOf g') ∧
      (((generationsOf s.names).map nameOf).Perm (s.names.filter namesGeneration) ↔
        ∀ q ∈ s.names, ∀ g, ¬IsPadded g q) ∧
      (∀ ms, s.readCommits = .ok ms → (∀ m ∈ ms, s.readManifest m.generation = .ok m) ∧
        (ms.map Manifest.name).Perm (s.names.filter namesGeneration)) ∧
      (∀ q ∈ s.names, ∀ g, IsPadded g q → ∃ err, s.readCommits = .error err) := by
  refine ⟨fun name g => Manifest.generationOf?_eq_some_iff_or, fun name g h => h.ne_nameOf,
    perm_generationsOf_iff, fun ms hms => ⟨readManifest_of_readCommits hms, ?_⟩, ?_⟩
  · refine (names_perm ?_ (fun q => named_of_readCommits hms) (readCommits_ascending hms)).symm
    intro m hm
    obtain ⟨data, -, hnode, -⟩ := readCommits_node hms m hm
    exact (mem_names_iff s m.name).mpr ⟨data, hnode⟩
  · intro q hq g hpadded
    cases hms : s.readCommits with
    | ok ms => exact absurd hpadded (not_isPadded_of_readCommits hms hq g)
    | error err => exact ⟨err, rfl⟩

/-- The manifest of a single commit. -/
def single : Manifest := ⟨⟨1⟩, ⟨1⟩, 0, []⟩

/-- A store of a single commit, and maybe of other artifacts. -/
def singleWith (others : List (String × Bytes)) : Store :=
  .ofMedium
    (.memory (Table.ofList ((single.name, single.encode.toOption.getD []) :: others))) .never

theorem readCommits_singleWith_nil : (singleWith []).readCommits = .ok [single] := by
  have hlist : (singleWith []).list = .ok ["commit_1"] := by decide +kernel
  have hgenerations : generationsOf ["commit_1"] = [⟨1⟩] := by
    have hfound : ["commit_1"].filterMap generationOf? = [⟨1⟩] := by decide +kernel
    exact generationsOf_eq (hfound ▸ .refl _) (List.pairwise_singleton _ _)
  unfold readCommits
  rw [hlist]
  dsimp only
  rw [hgenerations]
  decide +kernel

/-- Three digits are taken for the number of a generation whose manifest has one, and an artifact of
such a name keeps a store from being read. -/
theorem zeros_are_taken : generationOf? "commit_007" = some ⟨7⟩ ∧
    (∀ g, "commit_007" ≠ nameOf g) ∧ (singleWith []).readCommits = .ok [single] ∧
      (singleWith [("commit_01", [])]).readCommits = .error (.outOfOrder ⟨1⟩) := by
  have hseven : IsPadded ⟨7⟩ "commit_007" := ⟨2, by decide, by decide +kernel⟩
  have hone : IsPadded single.generation "commit_01" := ⟨1, by decide, by decide +kernel⟩
  refine ⟨hseven.generationOf?, hseven.ne_nameOf, readCommits_singleWith_nil, ?_⟩
  refine readCommits_of_padded_beside readCommits_singleWith_nil List.mem_cons_self hone ?_ ?_ ?_
  · decide +kernel
  · rfl
  · decide +kernel

end Store

end SnapshotRetention
