import BlockScript.Proofs.Correctness

/-!
# Blocks inside do not reach out

A block inside a program has variables of its own, and nothing that it does is seen outside it.  So
blocks can be taken out of a program, at any depth and as many as one likes (`Pruned`): if the
program runs to its end, so does what is left of it, with the same global variables
(`Engine.executeTree_pruned`).

The code of the two programs differs from the first block on, in the places of its constants and in
everything that is counted.  It is not compared.  What is left of the program still has code
(`Lowers.pruned`), it demands no more of the machine (`Tree.Fit.pruned`, `Pool.Within.length_le`),
and it means the same (`Tree.interpretAll_pruned`).
-/

namespace BlockScript

/-- The second list of statements is the first one without some of its blocks. -/
inductive Pruned : List Tree → List Tree → Prop where
  | nil : Pruned [] []
  | delete {site : Site} {body ts us : List Tree} :
      Pruned ts us → Pruned (.block site body :: ts) us
  | inside {site : Site} {body body' ts us : List Tree} :
      Pruned body body' → Pruned ts us → Pruned (.block site body :: ts) (.block site body' :: us)
  | keep {t : Tree} {ts us : List Tree} : Pruned ts us → Pruned (t :: ts) (t :: us)

theorem Pruned.refl : ∀ ts : List Tree, Pruned ts ts
  | [] => .nil
  | _ :: ts => .keep (refl ts)

/-! ## Demands -/

theorem append_subset_append {α : Type} {l₁ l₂ r₁ r₂ : List α} (hl : l₁ ⊆ l₂) (hr : r₁ ⊆ r₂) :
    l₁ ++ r₁ ⊆ l₂ ++ r₂ :=
  List.append_subset.2
    ⟨List.subset_append_of_subset_left r₂ hl, List.subset_append_of_subset_right l₂ hr⟩

namespace Tree

theorem namesAfterAll_pruned {ts us : List Tree} (h : Pruned ts us) :
    ∀ ns, namesAfterAll ns us = namesAfterAll ns ts := by
  induction h with
  | nil => exact fun _ => rfl
  | delete _ ih => exact ih
  | inside _ _ _ ih => exact ih
  | keep _ ih => exact fun ns => ih _

theorem initializersAll_pruned {ts us : List Tree} (h : Pruned ts us) :
    initializersAll us ⊆ initializersAll ts := by
  induction h with
  | nil => exact List.Subset.refl _
  | delete _ ih =>
      rw [initializersAll]
      exact List.subset_append_of_subset_right _ ih
  | inside _ _ ihb ih =>
      rw [initializersAll, initializersAll, initializers, initializers]
      exact append_subset_append ihb ih
  | keep _ ih =>
      rw [initializersAll, initializersAll]
      exact append_subset_append (List.Subset.refl _) ih

theorem blockNamesAll_pruned {ts us : List Tree} (h : Pruned ts us) :
    blockNamesAll us ⊆ blockNamesAll ts := by
  induction h with
  | nil => exact List.Subset.refl _
  | delete _ ih =>
      rw [blockNamesAll]
      exact List.subset_append_of_subset_right _ ih
  | inside hb _ ihb ih =>
      rw [blockNamesAll, blockNamesAll, blockNames, blockNames, namesAfterAll_pruned hb]
      exact append_subset_append (List.cons_subset_cons _ ihb) ih
  | keep _ ih =>
      rw [blockNamesAll, blockNamesAll]
      exact append_subset_append (List.Subset.refl _) ih

/-- Fewer blocks demand no more. -/
theorem Fit.pruned {limit used : Nat} {ns : List String} {ts us : List Tree}
    (hfit : Fit limit used ns ts) (h : Pruned ts us) : Fit limit used ns us where
  stack t ht := hfit.stack t (initializersAll_pruned h ht)
  blocks xs hxs := hfit.blocks xs (blockNamesAll_pruned h hxs)
  around hns := by
    rw [namesAfterAll_pruned h]
    exact hfit.around hns

/-! ## Meaning -/

/-- Statements that run to their end do the same without some of their blocks. -/
theorem interpretAll_pruned {ts us : List Tree} (h : Pruned ts us) :
    ∀ {b b' : Bindings} {outer : List Bindings},
      interpretAll (b :: outer) ts = ⟨b' :: outer, none⟩ →
      interpretAll (b :: outer) us = ⟨b' :: outer, none⟩ := by
  induction h with
  | nil =>
      intro b b' outer hts
      exact hts
  | delete _ ih =>
      intro b b' outer hts
      obtain ⟨b₁, ht, hrest⟩ := interpretAll_cons_inv hts
      obtain ⟨henv, -⟩ := interpret_block_inv ht
      cases henv
      exact ih hrest
  | inside _ _ ihb ih =>
      intro b b' outer hts
      obtain ⟨b₁, ht, hrest⟩ := interpretAll_cons_inv hts
      obtain ⟨henv, b₂, hbody⟩ := interpret_block_inv ht
      cases henv
      rw [interpretAll_cons_ok (interpret_block_ok (ihb hbody))]
      exact ih hrest
  | keep _ ih =>
      intro b b' outer hts
      obtain ⟨b₁, ht, hrest⟩ := interpretAll_cons_inv hts
      rw [interpretAll_cons_ok ht]
      exact ih hrest

end Tree

/-! ## Code -/

namespace Pool

/-- How the pool of what is left compares with the whole one.  Where constants are shared, it has
each of its constants once and none besides those of the whole one. -/
def Within : Bool → List Number → List Number → Prop
  | true, l, l' => l.Nodup ∧ l ⊆ l'
  | false, l, l' => l.length ≤ l'.length

namespace Within

theorem nil (share : Bool) : Within share [] [] := by
  cases share with
  | true => exact ⟨List.nodup_nil, List.Subset.refl _⟩
  | false => exact Nat.le_refl _

theorem length_le {share : Bool} {l l' : List Number} (h : Within share l l') :
    l.length ≤ l'.length := by
  cases share with
  | true => exact h.1.length_le_of_subset h.2
  | false => exact h

theorem of_prefix {share : Bool} {l l' l'' : List Number} (h : Within share l l')
    (hp : l' <+: l'') : Within share l l'' := by
  cases share with
  | true => exact ⟨h.1, List.Subset.trans h.2 hp.subset⟩
  | false => exact Nat.le_trans h hp.length_le

theorem add {share : Bool} {l l' : List Number} (h : Within share l l') (value : Number) :
    Within share (Pool.add share l value) (Pool.add share l' value) := by
  cases share with
  | true =>
      refine ⟨nodup_enroll value h.1, ?_⟩
      intro x hx
      exact mem_enroll.2 ((mem_enroll.1 hx).imp_left (fun hx => h.2 hx))
  | false =>
      have hlen : l.length ≤ l'.length := h
      simp [Within, Pool.add, hlen]

end Within

end Pool

/-- An expression has code for any pool before it. -/
theorem LowersExpression.within {share : Bool} {Γ : List (List String)} {pool pool' : List Number}
    {t : Tree} {code : List Instruction} (h : LowersExpression share Γ pool t code pool') :
    ∀ {l : List Number}, Pool.Within share l pool →
      ∃ code' l', LowersExpression share Γ l t code' l' ∧ Pool.Within share l' pool' := by
  induction h with
  | inline hv =>
      intro l hl
      exact ⟨_, _, .inline hv, hl⟩
  | @constant _ _ value _ hv =>
      intro l hl
      exact ⟨_, _, .constant hv, hl.add value⟩
  | identifier hloc =>
      intro l hl
      exact ⟨_, _, .identifier hloc, hl⟩
  | operation _ _ ihl ihr =>
      intro l hl
      obtain ⟨code₁, l₁, hlow₁, hl₁⟩ := ihl hl
      obtain ⟨code₂, l₂, hlow₂, hl₂⟩ := ihr hl₁
      exact ⟨_, _, .operation hlow₁ hlow₂, hl₂⟩

/-- What is left of statements with code has code, with no more constants. -/
theorem Lowers.pruned {share : Bool} {ns : List String} {Γ : List (List String)}
    {pool pool' : List Number} {ts : List Tree} {code : List Instruction}
    (h : Lowers share ns Γ pool ts code pool') :
    ∀ {us : List Tree} {l : List Number}, Pruned ts us → Pool.Within share l pool →
      ∃ code' l', Lowers share ns Γ l us code' l' ∧ Pool.Within share l' pool' := by
  induction h with
  | nil =>
      intro us l hp hl
      cases hp with
      | nil => exact ⟨_, _, .nil, hl⟩
  | declaration hinit _ ih =>
      intro us l hp hl
      cases hp with
      | keep hp =>
          obtain ⟨code₁, l₁, hlow₁, hl₁⟩ := hinit.within hl
          obtain ⟨code₂, l₂, hlow₂, hl₂⟩ := ih hp hl₁
          exact ⟨_, _, .declaration hlow₁ hlow₂, hl₂⟩
  | @block _ _ _ _ _ _ body _ _ _ hbody _ ihb ih =>
      intro us l hp hl
      cases hp with
      -- The constants of the deleted block stay in the whole pool only.
      | delete hp => exact ih hp (hl.of_prefix hbody.prefix_pool)
      | inside hpb hp =>
          obtain ⟨code₁, l₁, hlow₁, hl₁⟩ := ihb hpb hl
          obtain ⟨code₂, l₂, hlow₂, hl₂⟩ := ih hp hl₁
          exact ⟨_, _, .block hlow₁ hlow₂, hl₂⟩
      | keep hp =>
          obtain ⟨code₁, l₁, hlow₁, hl₁⟩ := ihb (.refl body) hl
          obtain ⟨code₂, l₂, hlow₂, hl₂⟩ := ih hp hl₁
          exact ⟨_, _, .block hlow₁ hlow₂, hl₂⟩

/-! ## Programs -/

/-- What is left of a program that fits the machine compiles and fits it as well. -/
theorem Compilation.Fits.pruned {p : Program} {s : Settings} {c : Compilation} {limit : Nat}
    (hfit : c.Fits p limit) (hc : p.compile s = .ok c) {us : List Tree} (h : Pruned p.body us) :
    ∃ c', Program.compile s ⟨p.site, us⟩ = .ok c' ∧ c'.Fits ⟨p.site, us⟩ limit := by
  obtain ⟨hstatements, hpool⟩ := (fits_iff hc limit).1 hfit
  obtain ⟨code, l, hlow, hl⟩ := (Program.lowers_of_compile hc).1.pruned h (.nil _)
  exact Program.exists_fits hlow (hstatements.pruned h) (Nat.le_trans hl.length_le hpool)

theorem Program.interpret_pruned {p : Program} {us : List Tree} (h : Pruned p.body us)
    (hok : p.interpret.failure = none) : interpret ⟨p.site, us⟩ = p.interpret := by
  obtain ⟨b, hint, -⟩ := interpret_ok hok
  exact (Tree.interpretAll_pruned h hint).trans hint.symm

/-- A program that the engine runs with success compiles and fits the machine, and the interpreter
runs it with success. -/
theorem Engine.fits_of_executeTree {e : Engine} {p : Program}
    (h : (e.executeTree p).result.result = .ok ()) :
    ∃ c, p.compile e.settings = .ok c ∧ c.Fits p e.settings.maxStackSize ∧
      p.interpret.failure = none := by
  cases hc : p.compile e.settings with
  | error error =>
      rw [executeTree_of_compile_error hc] at h
      cases h
  | ok c =>
      rw [executeTree_of_compile hc rfl] at h
      have hend := Program.run_ending hc {} e.settings.maxStackSize
      generalize ({} : Machine).run e.settings.maxStackSize c.words c.constants = r at h hend
      cases herror : r.error with
      | some error =>
          rw [herror] at h
          cases h
      | none =>
          obtain ⟨-, -, hfit⟩ := hend.fits_of_ok herror
          obtain ⟨-, ⟨-, hfail⟩ | ⟨_, _, hno, -⟩⟩ := hend.of_fits hfit
          · exact ⟨c, rfl, hfit, hfail⟩
          · rw [herror] at hno
            cases hno

/-- A program that runs with success runs with success without some of the blocks inside it, and its
global variables come to the same values in the same order. -/
theorem Engine.executeTree_pruned (e : Engine) {p : Program} {us : List Tree}
    (hok : (e.executeTree p).result.result = .ok ()) (h : Pruned p.body us) :
    (e.executeTree ⟨p.site, us⟩).result.result = .ok () ∧
      (e.executeTree ⟨p.site, us⟩).result.engine.globals =
        (e.executeTree p).result.engine.globals := by
  obtain ⟨c, hc, hfit, hmeans⟩ := fits_of_executeTree hok
  obtain ⟨c', hc', hfit'⟩ := hfit.pruned hc h
  have hint := Program.interpret_pruned h hmeans
  obtain ⟨-, hglobals⟩ := globals_of_fits hc hfit hmeans
  obtain ⟨hok', hglobals'⟩ := globals_of_fits hc' hfit' (by rw [hint]; exact hmeans)
  rw [hglobals, hglobals', hint]
  exact ⟨hok', rfl⟩

/-- The program `var a = 0.5; var c = a;`, which is `Program.shadowing` without its block. -/
def Program.flat : Program where
  site := .nowhere
  body := [
    .declaration .nowhere "a" none (.literal .nowhere (.float ⟨0x3FE0000000000000⟩) none),
    .declaration .nowhere "c" none (.identifier .nowhere "a" none)]

theorem Engine.executeTree_pruned_shadowing :
    (executeTree {} .shadowing).result.result = .ok () ∧
    Pruned Program.shadowing.body Program.flat.body ∧
    (executeTree {} .flat).result.result = .ok () ∧
    (executeTree {} .flat).result.engine.globals =
      (executeTree {} .shadowing).result.engine.globals := by
  obtain ⟨c, hc, hfit⟩ := Program.shadowing_fits
  have hok : (executeTree {} .shadowing).result.result = .ok () :=
    (globals_of_fits (e := {}) hc hfit rfl).1
  have hpruned : Pruned Program.shadowing.body Program.flat.body := .keep (.delete (.keep .nil))
  exact ⟨hok, hpruned, executeTree_pruned {} hok hpruned⟩

end BlockScript
