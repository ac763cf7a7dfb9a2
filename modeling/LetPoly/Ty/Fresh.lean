import LetPoly.Subst
import Std.Data.String.ToNat

/-!
# Fresh type variables

Fresh variables are `u0`, `u1`, `u2` and so on. An environment may already hold such names; the
first number that is safe to use with it is `Env.firstFresh`.
-/

namespace LetPoly

namespace TyVar

/-- The fresh variable with a given number. -/
def fresh (n : Nat) : TyVar := "u" ++ n.repr

theorem fresh_inj {m n : Nat} : fresh m = fresh n ↔ m = n := by
  simp [fresh, Nat.repr_inj]

/-- The number that digits write, of which there has to be one at least. -/
def digits? (ds : List Char) : Option Nat :=
  if ds ≠ [] ∧ ds.all Char.isDigit then some (Nat.ofDigitChars 10 ds 0) else none

/-- The number of a name that reads like a fresh one. Zeros or a plus sign may stand in front. -/
def number? (a : TyVar) : Option Nat :=
  match a.toList with
  | 'u' :: '+' :: ds => digits? ds
  | 'u' :: ds => digits? ds
  | _ => none

/-- The largest number of 32 bits, where the counter for fresh variables ends. -/
def maxNumber : Nat := 4294967295

/-- The first number after a name's own. A name that the counter cannot get past counts as any other
name: it is never handed out. -/
def successor (a : TyVar) : Nat :=
  match a.number? with
  | some n => if n < maxNumber then n + 1 else 0
  | none => 0

theorem number?_fresh (n : Nat) : (fresh n).number? = some n := by
  have hdigits : ∀ c ∈ Nat.toDigits 10 n, c.isDigit = true := fun c hc =>
    Nat.isDigit_of_mem_toDigits (by omega) (by omega) hc
  have hlist : (fresh n).toList = 'u' :: Nat.toDigits 10 n := by
    simp [fresh, Nat.toList_repr]
  unfold number?
  rw [hlist]
  split
  · rename_i ds h
    -- no number starts with a plus sign
    have := hdigits '+' (by simp_all)
    exact absurd this (by decide)
  · rename_i ds _ h
    obtain rfl := (List.cons.inj h).2
    rw [digits?, if_pos ⟨Nat.toDigits_ne_nil, List.all_eq_true.2 hdigits⟩,
      Nat.ofDigitChars_ten_toDigits]
  · rename_i h
    exact absurd rfl (h _)

theorem successor_fresh {n : Nat} (h : n < maxNumber) : (fresh n).successor = n + 1 := by
  simp [successor, number?_fresh, h]

end TyVar

/-- The first number such that it and all after it are fresh for an environment. -/
def Env.firstFresh (env : Env) : Nat :=
  ((env.schemes.flatMap Scheme.names).map TyVar.successor).foldl max 0

theorem le_foldl_max (ns : List Nat) (n : Nat) :
    n ≤ ns.foldl max n ∧ ∀ k ∈ ns, k ≤ ns.foldl max n := by
  induction ns generalizing n with
  | nil => simp
  | cons m ns ih =>
    obtain ⟨hinit, hmem⟩ := ih (max n m)
    simp only [List.foldl_cons, List.mem_cons, forall_eq_or_imp]
    exact ⟨by omega, by omega, hmem⟩

/-- The first fresh number is beyond every name of the environment that the counter can reach. -/
theorem Env.lt_firstFresh {env : Env} {x : String} {σ : Scheme} (hx : env[x]? = some σ) {k : Nat}
    (hk : TyVar.fresh k ∈ σ.names) (hmax : k < TyVar.maxNumber) : k < env.firstFresh := by
  have hmem : k + 1 ∈ (env.schemes.flatMap Scheme.names).map TyVar.successor := by
    refine List.mem_map.2 ⟨TyVar.fresh k, ?_, TyVar.successor_fresh hmax⟩
    exact List.mem_flatMap.2 ⟨σ, mem_schemes.2 ⟨x, hx⟩, hk⟩
  exact (le_foldl_max _ 0).2 _ hmem

end LetPoly
