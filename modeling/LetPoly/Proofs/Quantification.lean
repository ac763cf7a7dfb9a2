import LetPoly.Proofs.Generalization
import LetPoly.Proofs.Letters

/-!
# What is quantified, in which order

Generalization quantifies the variables of a type that are not free in the environment, each once, in
the order in which they first appear. Instantiation replaces them all at once by variables that are
drawn in the same order. As long as the environment does not know the drawn ones, the instance is the
type up to names, and generalizing it gives the scheme again, up to names.

In a closed environment all variables are quantified. Their order is also the order in which letters
are given, so the quantifiers of a judgement read `a`, `b`, `c` and so on (`Scheme.Canonical.text_eq`).
A judgement like this has no free variables, and so the environment stays closed from statement to
statement (`Env.Closed.after_check`).
-/

namespace LetPoly

/-! ### The order of first appearance -/

theorem eraseDups_filter {α : Type} [DecidableEq α] (p : α → Bool) (l : List α) :
    (l.filter p).eraseDups = l.eraseDups.filter p := by
  induction l using List.reverseRecOn with
  | nil => rfl
  | append_singleton l a ih =>
    have hlast : (([a].filter p).removeAll (l.filter p)).eraseDups =
        ([a].removeAll l).eraseDups.filter p := by
      by_cases ha : a ∈ l <;> cases hp : p a <;> simp [List.removeAll, List.eraseDups_cons, ha, hp]
    rw [List.filter_append, List.eraseDups_append, List.eraseDups_append, List.filter_append, ih, hlast]

theorem eraseDups_of_nodup {α : Type} [DecidableEq α] {l : List α} (h : l.Nodup) :
    l.eraseDups = l := by
  induction l using List.reverseRecOn with
  | nil => rfl
  | append_singleton l a ih =>
    obtain ⟨hl, -, hdisjoint⟩ := List.nodup_append.1 h
    have ha : a ∉ l := fun ha => hdisjoint a ha a (by simp) rfl
    rw [List.eraseDups_append, ih hl]
    simp [List.removeAll, List.eraseDups_cons, ha]

/-- The variables of a type as they stand in it, from left to right. -/
def Ty.leaves : Ty → List TyVar
  | .var a => [a]
  | .fn t u => t.leaves ++ u.leaves
  | .int | .bool => []

/-- The variables of a type are listed in the order in which they first appear. -/
theorem Ty.freeVars_eq_leaves (t : Ty) : t.freeVars = t.leaves.eraseDups := by
  induction t with
  | var a => rfl
  | fn t u iht ihu =>
    rw [freeVars_fn, leaves, List.eraseDups_append, iht, ihu, ← eraseDups_filter, List.removeAll]
    simp
  | int | bool => rfl

/-! ### Instances of a generalized type -/

namespace Scheme

/-- Renames the quantified variables to those that are drawn from `n` on. -/
def renew (σ : Scheme) (n : Nat) (a : TyVar) : TyVar :=
  if a ∈ σ.vars then TyVar.fresh (n + σ.vars.idxOf a) else a

variable {σ : Scheme} {n : Nat} {a : TyVar}

theorem renew_of_mem (ha : a ∈ σ.vars) : σ.renew n a = TyVar.fresh (n + σ.vars.idxOf a) :=
  if_pos ha

theorem renew_of_notMem (ha : a ∉ σ.vars) : σ.renew n a = a := if_neg ha

/-- If nothing is quantified twice, instantiation is a renaming. -/
theorem subst_renewal (h : σ.vars.Nodup) (n : Nat) (t : Ty) :
    t.subst (σ.renewal n) = t.rename (σ.renew n) := by
  rw [Ty.subst_eq_assign]
  refine Ty.assign_congr fun a _ => ?_
  by_cases ha : a ∈ σ.vars
  · obtain ⟨i, hi, hfresh⟩ := σ.exists_renewal n ha
    have hlt := (List.getElem?_eq_some_iff.1 hi).1
    obtain rfl := (List.getElem?_inj hlt h).1 (hi.trans (List.getElem?_idxOf ha).symm)
    rw [hfresh, renew_of_mem ha]
  · rw [Subst.assignment_of_notMem (mt mem_renewal.1 ha), renew_of_notMem ha]

/-- The renaming is one to one where the drawn variables are not in use for others. -/
theorem injOn_renew {vars : Set TyVar}
    (h : ∀ a ∈ vars, a ∉ σ.vars → ∀ k, TyVar.fresh k = a → k < n) : vars.InjOn (σ.renew n) := by
  intro a ha b hb hab
  by_cases hqa : a ∈ σ.vars <;> by_cases hqb : b ∈ σ.vars
  · rw [renew_of_mem hqa, renew_of_mem hqb, TyVar.fresh_inj] at hab
    exact (List.idxOf_inj hqa).1 (Nat.add_left_cancel hab)
  · rw [renew_of_mem hqa, renew_of_notMem hqb] at hab
    have := h b hb hqb _ hab
    omega
  · rw [renew_of_notMem hqa, renew_of_mem hqb] at hab
    have := h a ha hqa _ hab.symm
    omega
  · rwa [renew_of_notMem hqa, renew_of_notMem hqb] at hab

end Scheme

namespace Env

theorem nodup_vars_generalize (Γ : Env) (t : Ty) : (Γ.generalize t).vars.Nodup :=
  t.nodup_freeVars.filter _

theorem freeVars_generalize (Γ : Env) (t : Ty) :
    (Γ.generalize t).freeVars = t.freeVars.filter (· ∈ Γ.freeVars) := by
  refine List.filter_congr fun a (ha : a ∈ t.freeVars) => ?_
  rw [Bool.eq_iff_iff]
  simp [ha]

/-- Generalization does not look at names, but for those that are free in the environment. -/
theorem text_generalize_rename {Γ : Env} {t : Ty} {ρ : TyVar → TyVar}
    (hρ : {a | a ∈ t.freeVars}.InjOn ρ)
    (hΓ : ∀ a ∈ t.freeVars, ρ a ∈ Γ.freeVars ↔ a ∈ Γ.freeVars) :
    (Γ.generalize (t.rename ρ)).text = (Γ.generalize t).text := by
  have hbody := Ty.Alike.rename hρ fun a (ha : a ∈ t.freeVars) => ha
  have hvars : List.Forall₂ (Matching.graph hρ).rel (Γ.generalize t).vars
      (Γ.generalize (t.rename ρ)).vars := by
    refine List.rel_filter ?_ hbody.forall₂_freeVars
    rintro a _ ⟨ha, rfl⟩
    simp [hΓ a ha]
  exact (Naming.Alike.new.scheme hvars hbody).1.symm

end Env

/-- **Generalization and instantiation undo each other, up to names.** Of the variables of a type, the
generalized type has those free that are free in the environment, and quantifies the others, each once
and in the order in which they first appear. Instantiated with the counter at `n`, it is the type with
the first quantified variable replaced by `u<n>`, the second by `u<n+1>` and so on, all at once, and the
other variables kept. And if this instance is generalized in the same environment, the scheme has the
same text as before. The counter has to be past the fresh names that are free in the environment; which
names stand in the type, or are quantified in the environment, does not matter. -/
theorem generalize_instantiate_generalize (Γ : Env) (t : Ty) (n : Nat)
    (hn : ∀ k, TyVar.fresh k ∈ Γ.freeVars → k < n) :
    let σ := Γ.generalize t
    σ.freeVars = t.leaves.eraseDups.filter (· ∈ Γ.freeVars) ∧
    σ.vars = t.leaves.eraseDups.filter (· ∉ Γ.freeVars) ∧ σ.vars.Nodup ∧
    ∃ u, (InferM.instantiate σ n).result = .ok u ∧
      (InferM.instantiate σ n).next = n + σ.vars.length ∧
      u = t.rename (fun a => if a ∈ σ.vars then TyVar.fresh (n + σ.vars.idxOf a) else a) ∧
      (Γ.generalize u).text = σ.text := by
  intro σ
  have hnodup : σ.vars.Nodup := Γ.nodup_vars_generalize t
  have hyields : (InferM.instantiate σ).Yields n (t.rename (σ.renew n)) (n + σ.vars.length) :=
    InferM.yields_instantiate.2 ⟨Scheme.subst_renewal hnodup n t, rfl⟩
  -- a variable that is not quantified is free in the environment
  have hfixed : ∀ a ∈ t.freeVars, a ∉ σ.vars → a ∈ Γ.freeVars := by
    intro a ha hq
    by_contra hΓ
    exact hq (Env.mem_vars_generalize.2 ⟨ha, hΓ⟩)
  have hinj : {a | a ∈ t.freeVars}.InjOn (σ.renew n) :=
    Scheme.injOn_renew fun a ha hq k hk => hn k (hk ▸ hfixed a ha hq)
  refine ⟨?_, ?_, hnodup, _, hyields.1, hyields.2, rfl, Env.text_generalize_rename hinj ?_⟩
  · rw [← Ty.freeVars_eq_leaves]
    exact Γ.freeVars_generalize t
  · rw [← Ty.freeVars_eq_leaves]
    rfl
  · intro a ha
    by_cases hq : a ∈ σ.vars
    · rw [Scheme.renew_of_mem hq]
      refine iff_of_false (fun hfree => ?_) (Env.mem_vars_generalize.1 hq).2
      have := hn _ hfree
      omega
    · rw [Scheme.renew_of_notMem hq]

/-- The type `b -> u0 -> a -> b`, where `u0` is free in the environment and `a` is quantified there. -/
theorem generalize_instantiate_generalize_shadowed :
    let Γ : Env := .ofList [("f", ⟨["a"], .fn (.var "a") (.var "u0")⟩)]
    let σ := Γ.generalize (.curried [.var "b", .var "u0", .var "a"] (.var "b"))
    let u : Ty := .curried [.var "u1", .var "u0", .var "u2"] (.var "u1")
    (∀ k, TyVar.fresh k ∈ Γ.freeVars → k < 1) ∧ σ.freeVars = ["u0"] ∧ σ.vars = ["b", "a"] ∧
      (InferM.instantiate σ 1).result = .ok u ∧ (Γ.generalize u).text = σ.text ∧
      σ.text = "forall a c. a -> b -> c -> a" := by
  intro Γ σ u
  have hfree : Γ.freeVars = [TyVar.fresh 0] := by decide +kernel
  have hn : ∀ k, TyVar.fresh k ∈ Γ.freeVars → k < 1 := by
    intro k hk
    rw [hfree, List.mem_singleton, TyVar.fresh_inj] at hk
    omega
  obtain ⟨hfixed, hvars, -, v, hv, -, hrename, htext⟩ :=
    generalize_instantiate_generalize Γ (.curried [.var "b", .var "u0", .var "a"] (.var "b")) 1 hn
  obtain rfl : v = u := hrename.trans (by decide +kernel)
  exact ⟨hn, hfixed.trans (by decide +kernel), hvars.trans (by decide +kernel), hv, htext,
    by decide +kernel⟩

/-! ### Judgements -/

/-- All variables are quantified, in the order in which they appear. -/
def Scheme.Canonical (σ : Scheme) : Prop := σ.vars = σ.body.freeVars

namespace Scheme.Canonical

variable {σ : Scheme}

theorem freeVars_eq (h : σ.Canonical) : σ.freeVars = [] := by
  rw [Scheme.freeVars, h]
  simp

theorem nodup (h : σ.Canonical) : σ.vars.Nodup := by
  rw [h]
  exact σ.body.nodup_freeVars

/-- The quantified variables get the first letters, in their order. -/
theorem text_eq (h : σ.Canonical) : σ.text =
    Naming.quantifiers ((List.range σ.vars.length).map Naming.letter) ++ σ.body.text := by
  -- the body is met first, and leaves nothing to meet
  have hmet : (Naming.new.scheme σ).2 = .letters σ.vars := by
    have hnone : σ.vars.filter (fun a => decide (a ∉ σ.vars)) = [] := by simp
    rw [Naming.scheme_snd, Naming.meet_append, ← h, Naming.new, Naming.meet_letters,
      List.filter_eq_self.2 (by simp), eraseDups_of_nodup h.nodup, List.nil_append,
      Naming.meet_letters, hnone]
    simp
  have hletters : σ.vars.map (Naming.letters σ.vars).name =
      (List.range σ.vars.length).map Naming.letter := by
    refine List.ext_getElem (by simp) fun i hi _ => ?_
    have hi : i < σ.vars.length := by simpa using hi
    simp [Naming.name, h.nodup.idxOf_getElem i hi]
  rw [Scheme.text, Naming.scheme_fst, hmet, hletters]
  rfl

end Scheme.Canonical

/-- The scheme of a judgement is a type that was generalized in the environment at hand. -/
theorem exists_generalize_of_check {policy : LetPolicy} {ss : List (Located Statement)} {Γ : Env}
    {js : List Judgement} (hok : (check policy Γ ss).result = .ok js) {i : Nat} {j : Judgement}
    (hj : js[i]? = some j) : ∃ t, j.scheme = (Γ.after (js.take i)).generalize t := by
  obtain ⟨hi, -⟩ := List.getElem?_eq_some_iff.1 hj
  rw [length_check hok] at hi
  obtain ⟨t, -, hgen⟩ := check_infers hok (List.getElem?_eq_getElem hi)
  obtain rfl := Option.some.inj (hj.symm.trans hgen)
  exact ⟨t, rfl⟩

namespace Env

theorem after_append (Γ : Env) (js js' : List Judgement) :
    Γ.after (js ++ js') = (Γ.after js).after js' := List.foldl_append

namespace Closed

variable {Γ : Env}

theorem canonical (h : Γ.Closed) (t : Ty) : (Γ.generalize t).Canonical := by
  rw [h.generalize]
  rfl

/-- A statement keeps the environment closed, -/
theorem after_statement (h : Γ.Closed) (name : Option String) (t : Ty) :
    (Γ.define name (Γ.generalize t)).Closed := by
  cases name with
  | none => exact h
  | some x => exact h.define t x

/-- and so do any number of statements that are accepted. -/
theorem after_check (h : Γ.Closed) {policy : LetPolicy} {ss : List (Located Statement)}
    {js : List Judgement} (hok : (check policy Γ ss).result = .ok js) (i : Nat) :
    (Γ.after (js.take i)).Closed := by
  induction i with
  | zero => exact h
  | succ i ih =>
    rw [List.take_add_one]
    cases hj : js[i]? with
    | none => simpa using ih
    | some j =>
      obtain ⟨t, hgen⟩ := exists_generalize_of_check hok hj
      rw [after_append]
      show (Env.define _ j.name j.scheme).Closed
      rw [hgen]
      exact ih.after_statement j.name t

end Closed

end Env

/-- **Judgements are closed and quantified canonically.** If a source text is accepted, there is one
judgement for each of its statements, in their order: the type of the statement in the environment that
those before it leave, generalized there. All these environments are closed. In each judgement the
scheme has no free variable, and what is quantified are the variables of the type, each once and in the
order in which they appear; and these quantifiers are printed as the first names of the sequence `a`,
`b`, `c`, …, in its order. -/
theorem checkSource_judges_canonically (policy : LetPolicy) (source : String) (js : List Judgement)
    (h : (checkSource policy source).result = .ok js) :
    ∃ p, Program.parse source = .ok p ∧ js.length = p.statements.length ∧
      (∀ i, (Env.primitives.after (js.take i)).Closed) ∧
      (∀ i s, p.statements[i]? = some s →
        ∃ t, (inferType policy (Env.primitives.after (js.take i)) s.val.expr).result = .ok t ∧
          js[i]? = some ⟨s.val.name, (Env.primitives.after (js.take i)).generalize t⟩) ∧
      ∀ j ∈ js, j.scheme.freeVars = [] ∧ j.scheme.vars = j.scheme.body.freeVars ∧
        j.scheme.vars.Nodup ∧ j.scheme.text =
          Naming.quantifiers ((List.range j.scheme.vars.length).map Naming.letter) ++
            j.scheme.body.text := by
  unfold checkSource at h
  cases hparse : Program.parse source with
  | error e => simp [hparse] at h
  | ok p =>
    rw [hparse] at h
    have hprimitives : Env.primitives.Closed := by decide +kernel
    have hclosed := hprimitives.after_check h
    refine ⟨p, rfl, length_check h, hclosed, fun i s hs => check_infers h hs, fun j hj => ?_⟩
    obtain ⟨i, hi⟩ := List.mem_iff_getElem?.1 hj
    obtain ⟨t, hgen⟩ := exists_generalize_of_check h hi
    have hcanonical : j.scheme.Canonical := hgen ▸ (hclosed i).canonical t
    exact ⟨hcanonical.freeVars_eq, hcanonical, hcanonical.nodup, hcanonical.text_eq⟩

/-- A definition that hides a primitive function, and a use of it. -/
theorem checkSource_judges_canonically_hiding :
    let σ : Scheme := ⟨["u0", "u1"], .curried [.var "u0", .var "u1"] (.var "u0")⟩
    let σ' : Scheme := ⟨["u3", "u4", "u5"], .curried [.var "u3", .var "u4", .var "u5"] (.var "u4")⟩
    let js : List Judgement := [⟨some "const", σ⟩, ⟨none, σ'⟩]
    (checkSource .generalize "let const = \\x y -> x; const const").result = .ok js ∧
      (∀ i, (Env.primitives.after (js.take i)).Closed) ∧ σ'.freeVars = [] ∧
      σ'.text = "forall a b c. a -> b -> c -> b" := by
  intro σ σ' js
  let ss : List (Located Statement) := [⟨⟨some "const", .abs "x" (.abs "y" (.var "x"))⟩, ⟨0, 21⟩⟩,
    ⟨⟨none, .app (.var "const") (.var "const")⟩, ⟨23, 34⟩⟩]
  have hparse : Program.parse "let const = \\x y -> x; const const" = .ok ⟨ss, ⟨0, 34⟩⟩ := by
    decide +kernel
  have hcheck : (check .generalize .primitives ss).result = .ok js := by cbv
  have hok : (checkSource .generalize "let const = \\x y -> x; const const").result = .ok js := by
    rw [checkSource, hparse]
    exact hcheck
  obtain ⟨p, -, -, hclosed, -, hjs⟩ := checkSource_judges_canonically .generalize _ js hok
  obtain ⟨hfree, -, -, htext⟩ := hjs ⟨none, σ'⟩ (by simp [js])
  exact ⟨hok, hclosed, hfree, htext.trans (by decide +kernel)⟩

end LetPoly
