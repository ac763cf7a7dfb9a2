import LetPoly.Proofs.Renaming
import Mathlib.Data.List.Basic

/-!
# Writing with letters is renaming

Letters are given to variables in the order in which they are met, the first letter to the first one
and so on (`Naming.meet_letters`). No letter is given twice and a variable keeps its letter, so what is
written through one naming is written as if all of it had been renamed to letters before, and were
then written with its own names (`Naming.exists_schemes_eq`).
-/

namespace LetPoly

namespace Naming

/-! ### Letters -/

theorem toList_letter (i : Nat) : (letter i).toList =
    Char.ofNat ('a'.toNat + i % 26) :: if i < 26 then [] else Nat.toDigits 10 (i / 26) := by
  unfold letter
  split
  · exact String.toList_singleton _
  · rw [String.toList_append, String.toList_singleton]
    exact congrArg (_ :: ·) Nat.toList_repr

/-- No letter is given twice. -/
theorem letter_injective : Function.Injective letter := by
  have halphabet : ∀ j < 26, ∀ k < 26,
      Char.ofNat ('a'.toNat + j) = Char.ofNat ('a'.toNat + k) → j = k := by decide
  intro i j h
  have hchars := congrArg String.toList h
  rw [toList_letter, toList_letter, List.cons.injEq] at hchars
  obtain ⟨hchar, hdigits⟩ := hchars
  have hmod := halphabet _ (Nat.mod_lt i (by decide)) _ (Nat.mod_lt j (by decide)) hchar
  by_cases hi : i < 26 <;> by_cases hj : j < 26
  · omega
  · rw [if_pos hi, if_neg hj] at hdigits
    exact absurd hdigits.symm Nat.toDigits_ne_nil
  · rw [if_neg hi, if_pos hj] at hdigits
    exact absurd hdigits Nat.toDigits_ne_nil
  · rw [if_neg hi, if_neg hj, ← Nat.toList_repr, ← Nat.toList_repr, String.toList_inj,
      Nat.repr_inj] at hdigits
    omega

/-- Of variables that have been met, no two have the same name. -/
theorem name_inj {met : List TyVar} {a b : TyVar} (ha : a ∈ met)
    (h : (letters met).name a = (letters met).name b) : a = b :=
  (List.idxOf_inj ha).1 (letter_injective h)

/-- A variable that has been met keeps its letter. -/
theorem name_append {met : List TyVar} {a : TyVar} (ha : a ∈ met) (more : List TyVar) :
    (letters (met ++ more)).name a = (letters met).name a :=
  congrArg letter (List.idxOf_append_of_mem ha)

/-! ### Meeting variables -/

/-- Variables that have not been met get the next letters, in the order in which they first appear. -/
theorem meet_letters (met vars : List TyVar) :
    (letters met).meet vars = letters (met ++ (vars.filter (· ∉ met)).eraseDups) := by
  induction vars generalizing met with
  | nil => simp [meet]
  | cons a vars ih =>
    have hstep : (letters met).meet (a :: vars) =
        (letters (if a ∈ met then met else met ++ [a])).meet vars := rfl
    rw [hstep, ih]
    by_cases ha : a ∈ met
    · simp [ha]
    · have hfilter : vars.filter (fun b => decide (b ∉ met ++ [a])) =
          (vars.filter (fun b => decide (b ∉ met))).filter fun b => !b == a := by
        rw [List.filter_filter]
        refine List.filter_congr fun b _ => ?_
        rw [Bool.eq_iff_iff]
        simp [and_comm]
      rw [if_neg ha, hfilter, List.filter_cons_of_pos (by simpa using ha), List.eraseDups_cons,
        List.append_assoc, List.singleton_append]

theorem exists_meet (met vars : List TyVar) :
    ∃ more, (letters met).meet vars = letters (met ++ more) ∧ ∀ a ∈ vars, a ∈ met ++ more := by
  refine ⟨_, meet_letters met vars, fun a ha => ?_⟩
  by_cases hmet : a ∈ met <;> simp [ha, hmet]

theorem meet_append (n : Naming) (vars vars' : List TyVar) :
    n.meet (vars ++ vars') = (n.meet vars).meet vars' := by
  cases n with
  | own => rfl
  | letters met => exact congrArg letters List.foldl_append

/-! ### Texts -/

theorem ty_fst (n : Naming) (t : Ty) : (n.ty t).1 = t.print (n.meet t.freeVars).name := rfl

theorem scheme_snd (n : Naming) (σ : Scheme) :
    (n.scheme σ).2 = n.meet (σ.body.freeVars ++ σ.vars) := by
  unfold scheme
  split
  · rename_i hmono
    rw [List.isEmpty_iff.1 hmono, List.append_nil]
    rfl
  · exact (meet_append n _ _).symm

/-- What is written in front of a type: the names of the variables that are quantified, if there are
any. -/
def quantifiers (names : List String) : String :=
  if names.isEmpty then "" else "forall" ++ String.join (names.map (" " ++ ·)) ++ ". "

/-- The text of a scheme, where the quantified variables have the names that are given in the end. -/
theorem scheme_fst (n : Naming) (σ : Scheme) :
    (n.scheme σ).1 = quantifiers (σ.vars.map (n.scheme σ).2.name) ++ (n.ty σ.body).1 := by
  have hmeet : (n.scheme σ).2 = (n.ty σ.body).2.meet σ.vars := by
    rw [scheme_snd, meet_append]
    rfl
  rw [hmeet]
  obtain ⟨vars, t⟩ := σ
  cases vars with
  | nil => exact String.empty_append.symm
  | cons a vars =>
    simp only [scheme, Scheme.isMono, quantifiers, List.map_map]
    rfl

end Naming

/-! ### Renaming -/

theorem Ty.print_eq_rename (name : TyVar → String) (t : Ty) :
    t.print name = (t.rename name).print id := by
  induction t with
  | var a => rfl
  | fn t u iht ihu =>
    have hfn : (t.rename name).isFn = t.isFn := by cases t <;> rfl
    have hrename : (fn t u).rename name = fn (t.rename name) (u.rename name) := rfl
    simp only [hrename, print, hfn, iht, ihu]
  | int | bool => rfl

theorem Scheme.rename_congr {f g : TyVar → TyVar} {σ : Scheme} (h : ∀ a ∈ σ.names, f a = g a) :
    σ.rename f = σ.rename g := by
  have hvars : σ.vars.map f = σ.vars.map g :=
    List.map_congr_left fun a ha => h a (List.mem_append_left _ ha)
  have hbody : σ.body.rename f = σ.body.rename g :=
    Ty.assign_congr fun a ha => congrArg Ty.var (h a (List.mem_append_right _ ha))
  rw [rename, rename, hvars, hbody]

theorem Scheme.mem_names_rename {f : TyVar → TyVar} {σ : Scheme} {b : TyVar} :
    b ∈ (σ.rename f).names ↔ ∃ a ∈ σ.names, f a = b := by
  simp only [names, rename, List.mem_append, List.mem_map, Ty.rename, Ty.mem_freeVars_assign,
    Ty.freeVars_var, List.mem_singleton]
  grind

namespace Naming

/-- The text of a scheme is that of the scheme renamed to the letters that are given in the end. -/
theorem scheme_fst_eq_rename (met : List TyVar) (σ : Scheme) : ((letters met).scheme σ).1 =
    (own.scheme (σ.rename ((letters met).scheme σ).2.name)).1 := by
  have hown : own.name = id := rfl
  -- the letters that the body is written with are not changed when the quantified variables are met
  have hbody : σ.body.rename ((letters met).meet σ.body.freeVars).name =
      σ.body.rename ((letters met).scheme σ).2.name := by
    rw [scheme_snd, meet_append]
    obtain ⟨more, hmore, hmem⟩ := exists_meet met σ.body.freeVars
    obtain ⟨rest, hrest, -⟩ := exists_meet (met ++ more) σ.vars
    rw [hmore, hrest]
    exact Ty.assign_congr fun a ha => congrArg Ty.var (name_append (hmem a ha) rest).symm
  rw [scheme_fst, scheme_fst, ty_fst, ty_fst, Ty.print_eq_rename ((letters met).meet _).name, hbody,
    scheme_snd own]
  simp only [Scheme.rename, meet, hown, List.map_id]

theorem own_schemes (σs : List Scheme) : own.schemes σs = σs.map fun σ => (own.scheme σ).1 := by
  induction σs with
  | nil => rfl
  | cons σ σs ih =>
    have hsnd : (own.scheme σ).2 = own := by
      rw [scheme_snd]
      rfl
    show (own.scheme σ).1 :: (own.scheme σ).2.schemes σs = _
    rw [hsnd, ih, List.map_cons]

/-- **Writing with letters is renaming to letters.** -/
theorem exists_schemes_eq (met : List TyVar) (σs : List Scheme) :
    ∃ more, (∀ σ ∈ σs, ∀ a ∈ σ.names, a ∈ met ++ more) ∧ (letters met).schemes σs =
      own.schemes (σs.map (Scheme.rename (letters (met ++ more)).name)) := by
  induction σs generalizing met with
  | nil => exact ⟨[], by simp, rfl⟩
  | cons σ σs ih =>
    obtain ⟨more, hmore, hmem⟩ := exists_meet met (σ.body.freeVars ++ σ.vars)
    rw [← scheme_snd] at hmore
    have hnames : ∀ a ∈ σ.names, a ∈ met ++ more := by
      intro a ha
      rw [Scheme.names, List.mem_append] at ha
      exact hmem a (List.mem_append.2 ha.symm)
    obtain ⟨rest, hrest, htexts⟩ := ih (met ++ more)
    refine ⟨more ++ rest, ?_, ?_⟩
    · rw [← List.append_assoc]
      refine List.forall_mem_cons.2 ⟨fun a ha => ?_, hrest⟩
      exact List.mem_append_left rest (hnames a ha)
    · -- the names of the first scheme stay as they are when the others are met
      have hfirst : σ.rename (letters (met ++ more ++ rest)).name =
          σ.rename (letters (met ++ more)).name :=
        Scheme.rename_congr fun a ha => name_append (hnames a ha) rest
      show ((letters met).scheme σ).1 :: ((letters met).scheme σ).2.schemes σs = _
      rw [scheme_fst_eq_rename, hmore, htexts, ← List.append_assoc, own_schemes, own_schemes,
        List.map_cons, List.map_cons, hfirst]

end Naming

end LetPoly
