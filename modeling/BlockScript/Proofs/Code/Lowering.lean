import BlockScript.Engine
import BlockScript.Proofs.Tree.Erasure
import BlockScript.Proofs.Tree.Resolution

/-!
# From trees to code in one step

A program becomes code in two walks: resolution writes notes into the tree, and code generation
reads them.  Here both are one relation between a tree and its code.  It is given by rules on the
form of the tree, and knows contexts only as the names of the open blocks, the innermost first, and
the pool as the constants so far.

`Program.compile_of_lowers` and `Program.lowers_of_compile` say that a program compiles exactly when
it is related to some code, and then to that code.  What is proved about compiled programs further
on is proved by induction on this relation.
-/

namespace BlockScript

/-- The instruction that loads a slot. -/
def loadFrom (slot : Nat) (reach : Reach) : Instruction := Binding.load ⟨0, slot, reach⟩

/-- The instruction that stores into a slot of the innermost block; `Γ` are the blocks around it. -/
def storeInto (Γ : List (List String)) (slot : Nat) : Instruction :=
  (if Γ.isEmpty then Operation.storeGlobal else Operation.storeSlot).on [.slot slot]

/-- Code for an expression, among blocks with the names `Γ`.  The pool grows from the first list of
constants to the second. -/
inductive LowersExpression (share : Bool) (Γ : List (List String)) :
    List Number → Tree → List Instruction → List Number → Prop where
  | inline {pool : List Number} {site : Site} {value : Number} {constant : Option Nat} {n : Int} :
      value.inline? = some n →
      LowersExpression share Γ pool (.literal site value constant)
        [Operation.loadInteger.on [.immediate n]] pool
  | constant {pool : List Number} {site : Site} {value : Number} {constant : Option Nat} :
      value.inline? = none →
      LowersExpression share Γ pool (.literal site value constant)
        [Operation.loadConstant.on [.constant (Pool.place share pool value)]]
        (Pool.add share pool value)
  | identifier {pool : List Number} {site : Site} {name : String} {binding : Option Binding}
      {slot : Nat} {reach : Reach} :
      locate 0 name Γ = some (slot, reach) →
      LowersExpression share Γ pool (.identifier site name binding) [loadFrom slot reach] pool
  | operation {pool pool₁ pool₂ : List Number} {site : Site} {a : Arithmetic} {left right : Tree}
      {code₁ code₂ : List Instruction} :
      LowersExpression share Γ pool left code₁ pool₁ →
      LowersExpression share Γ pool₁ right code₂ pool₂ →
      LowersExpression share Γ pool (.operation site (.arithmetic a) left right)
        (code₁ ++ code₂ ++ [a.operation.on []]) pool₂

/-- Code for statements of a block with the names `ns` so far, among blocks with the names `Γ`. -/
inductive Lowers (share : Bool) : List String → List (List String) →
    List Number → List Tree → List Instruction → List Number → Prop where
  | nil {ns : List String} {Γ : List (List String)} {pool : List Number} :
      Lowers share ns Γ pool [] [] pool
  | declaration {ns : List String} {Γ : List (List String)} {pool pool₁ pool₂ : List Number}
      {site : Site} {name : String} {slot : Option Nat} {init : Tree} {ts : List Tree}
      {code₁ code₂ : List Instruction} :
      LowersExpression share (enroll ns name :: Γ) pool init code₁ pool₁ →
      Lowers share (enroll ns name) Γ pool₁ ts code₂ pool₂ →
      Lowers share ns Γ pool (.declaration site name slot init :: ts)
        (code₁ ++ storeInto Γ (ns.idxOf name) :: code₂) pool₂
  | block {ns : List String} {Γ : List (List String)} {pool pool₁ pool₂ : List Number}
      {site : Site} {body ts : List Tree} {code₁ code₂ : List Instruction} :
      Lowers share [] (ns :: Γ) pool body code₁ pool₁ →
      Lowers share ns Γ pool₁ ts code₂ pool₂ →
      Lowers share ns Γ pool (.block site body :: ts)
        (Operation.enter.on [] :: code₁ ++ Operation.leave.on [] :: code₂) pool₂

/-! ## Expressions -/

namespace LowersExpression

variable {share : Bool} {Γ : List (List String)} {pool pool' : List Number} {t : Tree}
  {code : List Instruction}

/-- Expressions declare nothing. -/
theorem namesAfter_eq (h : LowersExpression share Γ pool t code pool') (ns : List String) :
    t.namesAfter ns = ns := by
  induction h with
  | inline _ => rfl
  | constant _ => rfl
  | identifier _ => rfl
  | operation _ _ ihl ihr => rw [Tree.namesAfter, ihl, ihr]

/-- Expressions have no blocks. -/
theorem outlines_eq (h : LowersExpression share Γ pool t code pool') (parent next : Nat) :
    t.outlines parent next = [] := by
  induction h generalizing next with
  | inline _ => rfl
  | constant _ => rfl
  | identifier _ => rfl
  | operation _ _ ihl ihr => rw [Tree.outlines, ihl, ihr]; rfl

theorem prefix_pool (h : LowersExpression share Γ pool t code pool') : pool <+: pool' := by
  induction h with
  | inline _ => exact List.prefix_rfl
  | constant _ => exact Pool.prefix_add _ _ _
  | identifier _ => exact List.prefix_rfl
  | operation _ _ ihl ihr => exact ihl.trans ihr

/-- An expression that has code resolves, and the notes in it give that code. -/
theorem resolve (h : LowersExpression share Γ pool t code pool') :
    ∀ {active : Nat} {w : Walk}, Visible w.scopes.outline active Γ → w.scopes.pool = pool →
      (t.resolve share active w).error = none ∧
      (t.resolve share active w).walk.scopes.pool = pool' ∧
      (t.resolve share active w).walk.scopes.outline = w.scopes.outline ∧
      ∀ acc, (t.resolve share active w).value.emitExpression acc = .ok (acc ++ code.toArray) := by
  induction h with
  | inline hv =>
      intro active w _ hp
      rw [Tree.resolve, hv]
      refine ⟨rfl, hp, rfl, ?_⟩
      intro acc
      simp only [Tree.emitExpression, hv]
      simp
  | @constant pool site value _ hv =>
      intro active w hΓ hp
      obtain ⟨hpool, hplace⟩ := Scopes.register_spec hΓ share value
      rw [Tree.resolve, hv]
      refine ⟨rfl, hpool.trans (by rw [hp]), Scopes.outline_register _ _ _ _, ?_⟩
      intro acc
      simp only [Tree.emitExpression, hv]
      rw [← hp, ← hplace]
      simp [Walk.hoist]
  | @identifier pool site name binding slot reach hl =>
      intro active w hΓ hp
      have hfind := Scopes.lookupFrom_eq_locate hΓ name 0
      rw [hl] at hfind
      obtain ⟨b, hb, hbs⟩ := Option.map_eq_some_iff.1 hfind
      have hlook : w.scopes.lookup active name = some b := hb
      rw [Tree.resolve, hlook]
      refine ⟨rfl, hp, rfl, ?_⟩
      intro acc
      have hload : b.load = loadFrom slot reach := by
        cases hbs
        rfl
      simp only [Tree.emitExpression, hload]
      simp
  | @operation pool pool₁ pool₂ site a left right code₁ code₂ _ _ ihl ihr =>
      intro active w hΓ hp
      obtain ⟨hel, hpl, hol, hcl⟩ := ihl hΓ hp
      obtain ⟨her, hpr, hor, hcr⟩ := ihr (hol.symm ▸ hΓ) hpl
      rw [Tree.resolve_operation hel]
      refine ⟨her, hpr, hor.trans hol, ?_⟩
      intro acc
      simp only [Tree.emitExpression, hcl, hcr]
      simp

end LowersExpression

/-- An expression that resolves and becomes code is related to code. -/
theorem Tree.exists_lowersExpression (share : Bool) {Γ : List (List String)} {active : Nat} :
    ∀ (t : Tree) {w : Walk} {acc out : Code}, Visible w.scopes.outline active Γ →
      (t.resolve share active w).error = none →
      (t.resolve share active w).value.emitExpression acc = .ok out →
      ∃ code pool', LowersExpression share Γ w.scopes.pool t code pool'
  | .block site body, w, acc, out, _, _, h => by
      rw [resolve, emitExpression] at h
      cases h
  | .declaration site name slot init, w, acc, out, _, _, h => by
      rw [resolve, emitExpression] at h
      cases h
  | .operation site op left right, w, acc, out, hΓ, he, h => by
      obtain ⟨hel, her⟩ := resolve_operation_ok he
      rw [resolve_operation hel] at h
      cases op with
      | equal => rw [emitExpression] at h; cases h
      | notEqual => rw [emitExpression] at h; cases h
      | arithmetic a =>
          rw [emitExpression] at h
          cases hl : (left.resolve share active w).value.emitExpression acc with
          | error e =>
              rw [hl] at h
              cases h
          | ok acc₁ =>
              rw [hl] at h
              obtain ⟨code₁, pool₁, hlow₁⟩ := exists_lowersExpression share left hΓ hel hl
              obtain ⟨-, hpool₁, hout₁, -⟩ := hlow₁.resolve hΓ rfl
              cases hr : (right.resolve share active
                  (left.resolve share active w).walk).value.emitExpression acc₁ with
              | error e =>
                  simp only [hr] at h
                  cases h
              | ok acc₂ =>
                  obtain ⟨code₂, pool₂, hlow₂⟩ :=
                    exists_lowersExpression share right (hout₁.symm ▸ hΓ) her hr
                  rw [hpool₁] at hlow₂
                  exact ⟨_, _, .operation hlow₁ hlow₂⟩
  | .identifier site name binding, w, acc, out, hΓ, he, h => by
      cases hl : w.scopes.lookup active name with
      | none =>
          rw [resolve, hl] at he
          cases he
      | some b =>
          have hfind := Scopes.lookupFrom_eq_locate hΓ name 0
          have hlook : w.scopes.lookupFrom 0 active name = some b := hl
          rw [hlook] at hfind
          exact ⟨_, _, .identifier hfind.symm⟩
  | .literal site value constant, w, acc, out, _, _, _ => by
      cases hv : value.inline? with
      | some n => exact ⟨_, _, .inline hv⟩
      | none => exact ⟨_, _, .constant hv⟩

/-! ## Statements -/

namespace Scopes

/-- The parents of all contexts. -/
def parents (s : Scopes) : List (Option Nat) := s.outline.map Outline.parent

theorem parents_modify_append {s s' : Scopes} {i : Nat} {f : List String → List String}
    {more : List Outline} (h : s'.outline = s.outline.modify i (·.mapNames f) ++ more) :
    s'.parents = s.parents ++ more.map Outline.parent := by
  rw [parents, h, List.map_append, parents]
  congr 1
  apply List.ext_getElem?
  intro j
  rw [List.getElem?_map, List.getElem?_map]
  by_cases hj : i = j
  · subst hj
    rw [List.getElem?_modify_eq]
    cases s.outline[i]? with
    | none => rfl
    | some o => rfl
  · rw [List.getElem?_modify_ne _ _ hj]

/-- Contexts keep their parents: what was there before has the parent that it had. -/
theorem find?_of_parents {s final : Scopes} {i : Nat} {o : Outline}
    (h : s.outline[i]? = some o) (hs : s.parents <+: final.parents) :
    ∃ c, final.find? i = some c ∧ c.parent = o.parent := by
  have hp : s.parents[i]? = some o.parent := by rw [parents, List.getElem?_map, h]; rfl
  have hf : final.parents[i]? = some o.parent := getElem?_of_isPrefix hs hp
  rw [parents, List.getElem?_map] at hf
  obtain ⟨o', ho', hpar⟩ := Option.map_eq_some_iff.1 hf
  obtain ⟨c, hc, rfl⟩ := find?_of_outline ho'
  exact ⟨c, hc, hpar⟩

/-- Whether a context is global is settled when it is opened. -/
theorem isGlobal_of_visible {s final : Scopes} {i : Nat} {ns : List String}
    {Γ : List (List String)} (h : Visible s.outline i (ns :: Γ))
    (hs : s.parents <+: final.parents) :
    ∃ c, final.find? i = some c ∧ c.isGlobal = Γ.isEmpty := by
  cases h with
  | root ho hp =>
      obtain ⟨c, hc, hpar⟩ := find?_of_parents ho hs
      exact ⟨c, hc, by rw [Context.isGlobal, hpar, hp]; rfl⟩
  | inner ho hp _ hv =>
      obtain ⟨c, hc, hpar⟩ := find?_of_parents ho hs
      have hΓ : Γ.isEmpty = false := by simpa using hv.ne_nil
      exact ⟨c, hc, by rw [Context.isGlobal, hpar, hp, hΓ]; rfl⟩

end Scopes

namespace Tree

/-- What is visible after a node, without an error. -/
theorem visible_resolve {share : Bool} {active : Nat} {t : Tree} {w : Walk} {ns : List String}
    {Γ : List (List String)} (h : Visible w.scopes.outline active (ns :: Γ))
    (he : (t.resolve share active w).error = none) :
    Visible (t.resolve share active w).walk.scopes.outline active (t.namesAfter ns :: Γ) := by
  rw [resolve_outline share t h.lt_size he]
  exact (h.mapNames _).append _

theorem parents_resolveAll {share : Bool} {active : Nat} {ts : List Tree} {w : Walk}
    {Γ : List (List String)} (h : Visible w.scopes.outline active Γ)
    (he : (resolveAll share active [] ts w).error = none) :
    w.scopes.parents <+: (resolveAll share active [] ts w).walk.scopes.parents := by
  rw [Scopes.parents_modify_append (resolveAll_outline share ts h.lt_size he)]
  exact List.prefix_append _ _

end Tree

namespace Walk

/-- What is visible in a block that was just opened. -/
theorem visible_enter {w : Walk} {active : Nat} {Γ : List (List String)}
    (h : Visible w.scopes.outline active Γ) (owner : Location) :
    Visible (w.enter (some active) owner).scopes.outline w.scopes.size ([] :: Γ) := by
  rw [Tree.enter_outline h.lt_size, ← Scopes.length_outline]
  exact h.push owner

theorem pool_enter {w : Walk} {active : Nat} {Γ : List (List String)}
    (h : Visible w.scopes.outline active Γ) (parent : Option Nat) (owner : Location) :
    (w.enter parent owner).scopes.pool = w.scopes.pool :=
  Scopes.pool_push parent owner (Nat.lt_of_le_of_lt (Nat.zero_le _) h.lt_size)

/-- What is visible after a declaration, the slot that it gets, and the pool. -/
theorem visible_declare {w : Walk} {active : Nat} {ns : List String} {Γ : List (List String)}
    (h : Visible w.scopes.outline active (ns :: Γ)) (name : String) :
    Visible (w.declare active name).1.scopes.outline active (enroll ns name :: Γ) ∧
      (w.declare active name).2 = ns.idxOf name ∧
      (w.declare active name).1.scopes.pool = w.scopes.pool := by
  obtain ⟨o, ho, rfl⟩ := h.innermost
  obtain ⟨hout, hslot, hpool⟩ := Scopes.declare_spec ho name
  refine ⟨?_, hslot, hpool⟩
  rw [Walk.declare, hout]
  exact h.mapNames _

end Walk

namespace Tree

/-- The context of a block inside another is not global. -/
theorem isGlobal_block {share : Bool} {active : Nat} {site : Site} {body : List Tree} {w : Walk}
    {Γ : List (List String)} {final : Scopes} (h : Visible w.scopes.outline active Γ)
    (he : ((block site body).resolve share active w).error = none)
    (hf : ((block site body).resolve share active w).walk.scopes.parents <+: final.parents) :
    ∃ c, final.find? w.scopes.size = some c ∧ c.isGlobal = false := by
  have hvis := Walk.visible_enter h site.location
  rw [resolve_block] at he hf
  obtain ⟨c, hc, hg⟩ := Scopes.isGlobal_of_visible hvis ((parents_resolveAll hvis he).trans hf)
  have hΓ : Γ.isEmpty = false := by simpa using h.ne_nil
  exact ⟨c, hc, hg.trans hΓ⟩

theorem emitStatement_declaration {final : Scopes} {init : Tree} {active : Nat} {acc acc' : Code}
    {c : Context} (hinit : init.emitExpression acc = .ok acc')
    (hc : final.find? active = some c) (site : Site) (name : String) (slot : Nat) :
    (declaration (site.within active) name (some slot) init).emitStatement final acc =
      .ok (acc'.push
        ((if c.isGlobal then Operation.storeGlobal else Operation.storeSlot).on [.slot slot])) := by
  simp only [emitStatement, Site.within, hinit, hc]

theorem emitStatement_block {final : Scopes} {body : List Tree} {id : Nat} {acc acc' : Code}
    {c : Context} (hc : final.find? id = some c) (hg : c.isGlobal = false)
    (hbody : emitStatements final body (acc.push (Operation.enter.on [])) = .ok acc')
    (site : Site) :
    (block (site.within id) body).emitStatement final acc =
      .ok (acc'.push (Operation.leave.on [])) := by
  simp [emitStatement, Site.within, hbody, hc, hg]

theorem emitStatements_cons {final : Scopes} {t : Tree} {acc acc' : Code}
    (h : t.emitStatement final acc = .ok acc') (ts : List Tree) :
    emitStatements final (t :: ts) acc = emitStatements final ts acc' := by
  simp only [emitStatements, h]

/-- Code for a declaration has code for its initial value. -/
theorem emitStatement_declaration_ok {final : Scopes} {site : Site} {name : String}
    {active slot : Nat} {init : Tree} {acc out : Code}
    (h : (declaration (site.within active) name (some slot) init).emitStatement final acc =
      .ok out) :
    ∃ acc', init.emitExpression acc = .ok acc' := by
  cases hi : init.emitExpression acc with
  | ok acc' => exact ⟨acc', rfl⟩
  | error e => simp [emitStatement, Site.within, hi] at h

/-- Code for a block that is not global has code for its statements. -/
theorem emitStatement_block_ok {final : Scopes} {site : Site} {body : List Tree} {id : Nat}
    {acc out : Code} {c : Context} (hc : final.find? id = some c) (hg : c.isGlobal = false)
    (h : (block (site.within id) body).emitStatement final acc = .ok out) :
    ∃ acc', emitStatements final body (acc.push (Operation.enter.on [])) = .ok acc' := by
  cases hb : emitStatements final body (acc.push (Operation.enter.on [])) with
  | ok acc' => exact ⟨acc', rfl⟩
  | error e =>
      simp [emitStatement, Site.within, hc, hg, hb] at h

theorem emitStatements_cons_ok {final : Scopes} {t : Tree} {ts : List Tree} {acc out : Code}
    (h : emitStatements final (t :: ts) acc = .ok out) :
    ∃ acc', t.emitStatement final acc = .ok acc' ∧ emitStatements final ts acc' = .ok out := by
  cases ht : t.emitStatement final acc with
  | ok acc' => exact ⟨acc', rfl, by rw [emitStatements_cons ht] at h; exact h⟩
  | error e =>
      rw [emitStatements, ht] at h
      cases h

end Tree

namespace Lowers

variable {share : Bool} {ns : List String} {Γ : List (List String)} {pool pool' : List Number}
  {ts : List Tree} {code : List Instruction}

theorem prefix_pool (h : Lowers share ns Γ pool ts code pool') : pool <+: pool' := by
  induction h with
  | nil => exact List.prefix_rfl
  | declaration hinit _ ih => exact hinit.prefix_pool.trans ih
  | block _ _ ihb ih => exact ihb.trans ih

/-- Statements that have code resolve, and the notes in them give that code, whatever contexts are
opened after them. -/
theorem resolve (h : Lowers share ns Γ pool ts code pool') :
    ∀ {active : Nat} {w : Walk}, Visible w.scopes.outline active (ns :: Γ) → w.scopes.pool = pool →
      (Tree.resolveAll share active [] ts w).error = none ∧
      (Tree.resolveAll share active [] ts w).walk.scopes.pool = pool' ∧
      ∀ {final : Scopes},
        (Tree.resolveAll share active [] ts w).walk.scopes.parents <+: final.parents →
        ∀ acc, Tree.emitStatements final (Tree.resolveAll share active [] ts w).value acc =
          .ok (acc ++ code.toArray) := by
  induction h with
  | nil =>
      intro active w _ hp
      refine ⟨rfl, hp, ?_⟩
      intro final _ acc
      simp [Tree.resolveAll, Tree.emitStatements]
  | @declaration ns Γ pool pool₁ pool₂ site name slot init ts code₁ code₂ hinit _ ih =>
      intro active w hΓ hp
      obtain ⟨hvis, hslot, hpool⟩ := Walk.visible_declare hΓ name
      obtain ⟨hei, hpi, hoi, hci⟩ := hinit.resolve hvis (hpool.trans hp)
      have he : ((Tree.declaration site name slot init).resolve share active w).error = none := hei
      obtain ⟨her, hpr, hcr⟩ := ih (w := (init.resolve share active (w.declare active name).1).walk)
        (hoi.symm ▸ hvis) hpi
      rw [Tree.resolveAll_cons he, Tree.resolve_declaration]
      refine ⟨her, hpr, ?_⟩
      intro final hfinal acc
      have hvis' : Visible (init.resolve share active (w.declare active name).1).walk.scopes.outline
          active (enroll ns name :: Γ) := hoi.symm ▸ hvis
      obtain ⟨c, hc, hg⟩ := Scopes.isGlobal_of_visible hvis'
        ((Tree.parents_resolveAll hvis' her).trans hfinal)
      have hstore := Tree.emitStatement_declaration (hci acc) hc site name (ns.idxOf name)
      rw [hslot, Tree.emitStatements_cons hstore, hcr hfinal, hg]
      simp [storeInto]
  | @block ns Γ pool pool₁ pool₂ site body ts code₁ code₂ _ _ ihb ih =>
      intro active w hΓ hp
      have hvis := Walk.visible_enter hΓ site.location
      obtain ⟨heb, hpb, hcb⟩ := ihb hvis ((Walk.pool_enter hΓ _ _).trans hp)
      have he : ((Tree.block site body).resolve share active w).error = none := heb
      have hvis' : Visible ((Tree.block site body).resolve share active w).walk.scopes.outline
          active (ns :: Γ) := Tree.visible_resolve hΓ he
      obtain ⟨her, hpr, hcr⟩ := ih hvis' hpb
      rw [Tree.resolveAll_cons he]
      refine ⟨her, hpr, ?_⟩
      intro final hfinal acc
      -- The code is made when all contexts are open; those of the block are not global then either.
      have hbody := (Tree.parents_resolveAll hvis' her).trans hfinal
      obtain ⟨c, hc, hg⟩ := Tree.isGlobal_block hΓ he hbody
      have hblock := Tree.emitStatement_block hc hg (hcb hbody (acc.push _)) site
      rw [Tree.resolve_block, Tree.emitStatements_cons hblock]
      refine (hcr hfinal _).trans ?_
      simp

end Lowers

/-- Statements that resolve and become code are related to code. -/
theorem Tree.exists_lowers (share : Bool) {final : Scopes} :
    ∀ (ts : List Tree) {ns : List String} {Γ : List (List String)} {active : Nat} {w : Walk}
      {acc out : Code}, Visible w.scopes.outline active (ns :: Γ) →
      (resolveAll share active [] ts w).error = none →
      (resolveAll share active [] ts w).walk.scopes.parents <+: final.parents →
      emitStatements final (resolveAll share active [] ts w).value acc = .ok out →
      ∃ code pool', Lowers share ns Γ w.scopes.pool ts code pool'
  | [], ns, Γ, active, w, acc, out, _, _, _, _ => ⟨_, _, .nil⟩
  | .declaration site name slot init :: ts, ns, Γ, active, w, acc, out, hΓ, he, hf, h => by
      obtain ⟨het, hets⟩ := resolveAll_cons_ok he
      rw [resolveAll_cons het] at h hf
      obtain ⟨acc', ht, hts⟩ := emitStatements_cons_ok h
      obtain ⟨hvis, -, hpool⟩ := Walk.visible_declare hΓ name
      rw [resolve_declaration] at het ht
      obtain ⟨acc₁, hinit⟩ := emitStatement_declaration_ok ht
      obtain ⟨code₁, pool₁, hlow⟩ := exists_lowersExpression share init hvis het hinit
      obtain ⟨-, hpool₁, hout₁, -⟩ := hlow.resolve hvis rfl
      obtain ⟨code₂, pool₂, hrest⟩ := exists_lowers share ts
        (w := (init.resolve share active (w.declare active name).1).walk)
        (hout₁.symm ▸ hvis) hets hf hts
      rw [hpool] at hlow
      rw [hpool₁] at hrest
      exact ⟨_, _, .declaration hlow hrest⟩
  | .block site body :: ts, ns, Γ, active, w, acc, out, hΓ, he, hf, h => by
      obtain ⟨het, hets⟩ := resolveAll_cons_ok he
      rw [resolveAll_cons het] at h hf
      obtain ⟨acc', ht, hts⟩ := emitStatements_cons_ok h
      have hvis := Walk.visible_enter hΓ site.location
      have hvis' := visible_resolve hΓ het
      have hf' := (parents_resolveAll hvis' hets).trans hf
      obtain ⟨c, hc, hg⟩ := isGlobal_block hΓ het hf'
      obtain ⟨code₂, pool₂, hrest⟩ := exists_lowers share ts hvis' hets hf hts
      rw [resolve_block] at het ht hf' hrest
      obtain ⟨acc₁, hbody⟩ := emitStatement_block_ok hc hg ht
      obtain ⟨code₁, pool₁, hlow⟩ := exists_lowers share body hvis het hf' hbody
      obtain ⟨-, hpool₁, -⟩ := hlow.resolve hvis rfl
      rw [Walk.pool_enter hΓ] at hlow
      rw [hpool₁] at hrest
      exact ⟨_, _, .block hlow hrest⟩
  | .operation site op left right :: ts, ns, Γ, active, w, acc, out, _, he, _, h => by
      obtain ⟨het, -⟩ := resolveAll_cons_ok he
      rw [resolveAll_cons het] at h
      obtain ⟨acc', ht, -⟩ := emitStatements_cons_ok h
      obtain ⟨hl, -⟩ := resolve_operation_ok het
      rw [resolve_operation hl, emitStatement] at ht
      cases ht
  | .identifier site name binding :: ts, ns, Γ, active, w, acc, out, _, he, _, h => by
      obtain ⟨het, -⟩ := resolveAll_cons_ok he
      rw [resolveAll_cons het] at h
      obtain ⟨acc', ht, -⟩ := emitStatements_cons_ok h
      rw [resolve] at ht
      split at ht
      next => rw [emitStatement] at ht; cases ht
      next => rw [emitStatement] at ht; cases ht
  | .literal site value constant :: ts, ns, Γ, active, w, acc, out, _, he, _, h => by
      obtain ⟨het, -⟩ := resolveAll_cons_ok he
      rw [resolveAll_cons het] at h
      obtain ⟨acc', ht, -⟩ := emitStatements_cons_ok h
      rw [resolve] at ht
      split at ht
      next => rw [emitStatement] at ht; cases ht
      next => rw [emitStatement] at ht; cases ht

/-! ## Programs -/

namespace Program

/-- The contexts of a program, read off its tree. -/
def outlines (p : Program) : List Outline :=
  ⟨none, p.site.location, Tree.namesAfterAll [] p.body⟩ :: Tree.outlinesAll 0 1 p.body

/-- The state in which the statements of a program are resolved. -/
def start (p : Program) : Walk := ({} : Walk).enter none p.site.location

theorem outline_start (p : Program) :
    p.start.scopes.outline = [⟨none, p.site.location, []⟩] := by
  rw [start, Walk.enter, Scopes.outline_push]
  rfl

theorem pool_start (p : Program) : p.start.scopes.pool = [] := rfl

theorem visible_start (p : Program) : Visible p.start.scopes.outline 0 [[]] := by
  rw [outline_start]
  exact .root (o := ⟨none, p.site.location, []⟩) rfl rfl

theorem outline_resolve {p : Program} {share : Bool} (h : (p.resolve share).error = none) :
    (p.resolve share).walk.scopes.outline = p.outlines := by
  have hsize : p.start.scopes.size = 1 := by rw [← Scopes.length_outline, outline_start]; rfl
  have hout := Tree.resolveAll_outline share p.body p.visible_start.lt_size h
  rw [outline_start, hsize] at hout
  exact hout

/-- The outermost block becomes the code of its statements and nothing else. -/
theorem emit_resolve {p : Program} {share : Bool} (h : (p.resolve share).error = none)
    (acc : Code) :
    (p.resolve share).value.emit (p.resolve share).walk.scopes acc =
      Tree.emitStatements (p.resolve share).walk.scopes (p.resolve share).value.body acc := by
  obtain ⟨c, hc, hg⟩ : ∃ c, (p.resolve share).walk.scopes.find? 0 = some c ∧ c.isGlobal = true :=
    Scopes.isGlobal_of_visible p.visible_start (Tree.parents_resolveAll p.visible_start h)
  have hsite : (p.resolve share).value.site.context = some 0 := rfl
  rw [emit, toTree, Tree.emitStatement, hsite]
  simp [hc, hg]

/-- What a program compiles to: it resolves, and the resolved tree becomes the code. -/
theorem compile_ok_iff {p : Program} {s : Settings} {c : Compilation} :
    p.compile s = .ok c ↔
      (p.resolve s.dedupeConstants).error = none ∧
      (p.resolve s.dedupeConstants).walk.scopes = c.scopes ∧
      (p.resolve s.dedupeConstants).value.emit c.scopes #[] = .ok c.code := by
  constructor
  · intro h
    cases he : (p.resolve s.dedupeConstants).error with
    | some e =>
        simp only [compile, compileLogged, he] at h
        cases h
    | none =>
        cases hemit : (p.resolve s.dedupeConstants).value.emit
            (p.resolve s.dedupeConstants).walk.scopes #[] with
        | error e =>
            simp only [compile, compileLogged, he, hemit] at h
            cases h
        | ok code =>
            simp only [compile, compileLogged, he, hemit] at h
            cases h
            exact ⟨rfl, rfl, hemit⟩
  · rintro ⟨he, hs, hemit⟩
    simp only [compile, compileLogged, he, hs, hemit]

theorem compile_of_unresolved {p : Program} {s : Settings} {e : Undeclared}
    (h : (p.resolve s.dedupeConstants).error = some e) : p.compile s = .error (.resolution e) := by
  simp only [compile, compileLogged, h]

theorem compile_of_emit_error {p : Program} {s : Settings} {e : EmitError} {code : Code}
    (h : (p.resolve s.dedupeConstants).error = none)
    (he : (p.resolve s.dedupeConstants).value.emit (p.resolve s.dedupeConstants).walk.scopes #[] =
      .error (e, code)) : p.compile s = .error (.emission e) := by
  simp only [compile, compileLogged, h, he]

/-- A program with code compiles to this code. -/
theorem compile_of_lowers {p : Program} {s : Settings} {code : List Instruction}
    {pool : List Number} (h : Lowers s.dedupeConstants [] [] [] p.body code pool) :
    ∃ c, p.compile s = .ok c ∧ c.code = code.toArray ∧ c.scopes.pool = pool := by
  obtain ⟨he, hpool, hcode⟩ := h.resolve p.visible_start p.pool_start
  have hemit := (emit_resolve he #[]).trans (hcode List.prefix_rfl #[])
  exact ⟨⟨_, _⟩, compile_ok_iff.2 ⟨he, rfl, hemit⟩, by simp, hpool⟩

/-- A compiled program has code, and its contexts are those of its tree. -/
theorem lowers_of_compile {p : Program} {s : Settings} {c : Compilation}
    (h : p.compile s = .ok c) :
    Lowers s.dedupeConstants [] [] [] p.body c.code.toList c.scopes.pool ∧
      c.scopes.outline = p.outlines := by
  obtain ⟨he, hs, hemit⟩ := compile_ok_iff.1 h
  rw [← hs, emit_resolve he] at hemit
  obtain ⟨code, pool, hlow⟩ := Tree.exists_lowers s.dedupeConstants p.body p.visible_start he
    List.prefix_rfl hemit
  obtain ⟨c', hc', hcode, hpool⟩ := compile_of_lowers hlow
  cases h.symm.trans hc'
  rw [hcode, hpool]
  exact ⟨hlow, hs ▸ outline_resolve he⟩

end Program

/-! ## A program

The program below is a case for what is proved about programs further on: it has a block that reads
a variable from around it and then hides it. -/

/-- The program `var a = 0.5; { var b = a + 1; var a = b; } var c = a;`. -/
def Program.shadowing : Program where
  site := .nowhere
  body := [
    .declaration .nowhere "a" none (.literal .nowhere (.float ⟨0x3FE0000000000000⟩) none),
    .block .nowhere [
      .declaration .nowhere "b" none (.operation .nowhere (.arithmetic .add)
        (.identifier .nowhere "a" none) (.literal .nowhere (.integer 1) none)),
      .declaration .nowhere "a" none (.identifier .nowhere "b" none)],
    .declaration .nowhere "c" none (.identifier .nowhere "a" none)]

theorem Program.lowers_shadowing :
    ∃ code, Lowers false [] [] [] shadowing.body code [.float ⟨0x3FE0000000000000⟩] :=
  ⟨_, .declaration (.constant rfl)
    (.block
      (.declaration (.operation (.identifier rfl) (.inline rfl))
        (.declaration (.identifier rfl) .nil))
      (.declaration (.identifier rfl) .nil))⟩

end BlockScript
