import BlockScript.Engine
import BlockScript.Proofs.Scope.Renaming
import BlockScript.Proofs.Code.Lowering

/-!
# Names matter only through what they are bound to

A variable of a block gets a new name, in its declarations and in the identifiers that resolution
has bound to it and nowhere else (`Tree.rename`).  `Program.compile_rename` says that the program
then compiles to the same code with the same constants, and to contexts that differ in this name
alone.

The renaming reads the notes of resolution, and the renamed program may have any notes of its own:
it is only compared without them (`Tree.bare`).  The proof walks over both programs at once.  The
arenas of the two walks stay related (`Scopes.RenamedTo`), and what the walks leave in the trees
gives the same code (`Resolved.Follows`).
-/

namespace BlockScript

/-! ## Names in trees -/

namespace Tree

mutual

/-- The names in a tree. -/
def mentions : Tree → List String
  | block _ body => mentionsAll body
  | declaration _ name _ init => name :: init.mentions
  | operation _ _ left right => left.mentions ++ right.mentions
  | identifier _ name _ => [name]
  | literal .. => []

/-- The names in trees. -/
def mentionsAll : List Tree → List String
  | [] => []
  | t :: ts => t.mentions ++ mentionsAll ts

end

/-! ## Renaming -/

mutual

/-- Renames a variable in a tree with notes: where it is declared in its context, and where an
identifier is bound to its slot. -/
def rename (r : Renaming) : Tree → Tree
  | block site body => block site (renameAll r body)
  | declaration site name slot init =>
    let name := if site.context = some r.context ∧ name = r.old then r.new else name
    declaration site name slot (init.rename r)
  | operation site op left right => operation site op (left.rename r) (right.rename r)
  | identifier site name binding =>
    let bound := binding.any fun b => b.context = r.context ∧ b.slot = r.slot
    identifier site (if bound then r.new else name) binding
  | literal site value constant => literal site value constant

/-- Renames a variable in trees with notes. -/
def renameAll (r : Renaming) : List Tree → List Tree
  | [] => []
  | t :: ts => t.rename r :: renameAll r ts

end

/-! ### Trees that are the same without notes -/

variable {t : Tree} {site : Site}

theorem bare_eq_block {body : List Tree} (h : t.bare = block site body) :
    ∃ site' body', t = block site' body' ∧ site'.location = site.location ∧
      bareAll body' = body := by
  cases t with
  | block site' body' =>
      rw [bare] at h
      injection h with hs hb
      exact ⟨site', body', rfl, by rw [← hs]; rfl, hb⟩
  | _ => cases h

theorem bare_eq_declaration {name : String} {slot : Option Nat} {init : Tree}
    (h : t.bare = declaration site name slot init) :
    ∃ site' slot' init', t = declaration site' name slot' init' ∧
      site'.location = site.location ∧ init'.bare = init := by
  cases t with
  | declaration site' name' slot' init' =>
      rw [bare] at h
      injection h with hs hn _ hi
      exact ⟨site', slot', init', by rw [hn], by rw [← hs]; rfl, hi⟩
  | _ => cases h

theorem bare_eq_operation {op : Operator} {left right : Tree}
    (h : t.bare = operation site op left right) :
    ∃ site' left' right', t = operation site' op left' right' ∧
      site'.location = site.location ∧ left'.bare = left ∧ right'.bare = right := by
  cases t with
  | operation site' op' left' right' =>
      rw [bare] at h
      injection h with hs ho hl hr
      exact ⟨site', left', right', by rw [ho], by rw [← hs]; rfl, hl, hr⟩
  | _ => cases h

theorem bare_eq_identifier {name : String} {binding : Option Binding}
    (h : t.bare = identifier site name binding) :
    ∃ site' binding', t = identifier site' name binding' ∧ site'.location = site.location := by
  cases t with
  | identifier site' name' binding' =>
      rw [bare] at h
      injection h with hs hn _
      exact ⟨site', binding', by rw [hn], by rw [← hs]; rfl⟩
  | _ => cases h

theorem bare_eq_literal {value : Number} {constant : Option Nat}
    (h : t.bare = literal site value constant) :
    ∃ site' constant', t = literal site' value constant' ∧ site'.location = site.location := by
  cases t with
  | literal site' value' constant' =>
      rw [bare] at h
      injection h with hs hv _
      exact ⟨site', constant', by rw [hv], by rw [← hs]; rfl⟩
  | _ => cases h

mutual

/-- Resolution adds notes to a tree and changes nothing else. -/
theorem bare_resolve (share : Bool) : ∀ (t : Tree) {active : Nat} {w : Walk},
    (t.resolve share active w).error = none → (t.resolve share active w).value.bare = t.bare
  | block site body, active, w, he => by
      rw [resolve_block] at he ⊢
      rw [bare, bare, bareAll_resolveAll share body he]
      rfl
  | declaration site name slot init, active, w, he => by
      rw [resolve_declaration] at he ⊢
      rw [bare, bare, bare_resolve share init he]
      rfl
  | operation site op left right, active, w, he => by
      obtain ⟨hl, hr⟩ := resolve_operation_ok he
      rw [resolve_operation hl, bare, bare, bare_resolve share left hl, bare_resolve share right hr]
      rfl
  | identifier site name binding, active, w, _ => by
      rw [resolve]
      split
      next => rfl
      next => rfl
  | literal site value constant, active, w, _ => by
      rw [resolve]
      split
      next => rfl
      next => rfl

theorem bareAll_resolveAll (share : Bool) : ∀ (ts : List Tree) {active : Nat} {w : Walk},
    (resolveAll share active [] ts w).error = none →
    bareAll (resolveAll share active [] ts w).value = bareAll ts
  | [], _, _, _ => rfl
  | t :: ts, active, w, he => by
      obtain ⟨ht, hts⟩ := resolveAll_cons_ok he
      rw [resolveAll_cons ht, bareAll, bareAll, bare_resolve share t ht,
        bareAll_resolveAll share ts hts]

end

end Tree

/-! ## Arenas grow -/

/-- The names in the first arena keep their contexts and slots in the second one. -/
def Scopes.Grows (s s' : Scopes) : Prop :=
  ∀ (i : Nat) (c : Context), s.find? i = some c →
    ∃ c', s'.find? i = some c' ∧ c.nameList <+: c'.nameList

namespace Scopes

theorem Grows.refl (s : Scopes) : s.Grows s := fun _ c hc => ⟨c, hc, List.prefix_rfl⟩

theorem Grows.trans {s s' s'' : Scopes} (h : s.Grows s') (h' : s'.Grows s'') : s.Grows s'' := by
  intro i c hc
  obtain ⟨c', hc', hp⟩ := h i c hc
  obtain ⟨c'', hc'', hp'⟩ := h' i c' hc'
  exact ⟨c'', hc'', hp.trans hp'⟩

theorem grows_of_outline {s s' : Scopes} {j : Nat} {f : List String → List String}
    {more : List Outline} (h : s'.outline = s.outline.modify j (·.mapNames f) ++ more)
    (hf : ∀ ns, ns <+: f ns) : s.Grows s' := by
  intro i c hc
  have ho : s.outline[i]? = some c.outline := by rw [getElem?_outline, hc]; rfl
  have hi : i < (s.outline.modify j (·.mapNames f)).length := by
    rw [List.length_modify]
    exact (List.getElem?_eq_some_iff.1 ho).1
  have ho' : s'.outline[i]? = some (if j = i then c.outline.mapNames f else c.outline) := by
    rw [h, List.getElem?_append_left hi, List.getElem?_modify, ho]
    by_cases hij : j = i
    · simp [hij]
    · simp [hij]
  obtain ⟨c', hc', he⟩ := find?_of_outline ho'
  refine ⟨c', hc', ?_⟩
  have hnames : c'.nameList = c'.outline.names := rfl
  rw [hnames, he]
  by_cases hij : j = i
  · rw [if_pos hij]
    exact hf c.nameList
  · rw [if_neg hij]
    exact List.prefix_rfl

end Scopes

/-- The arena has the variable that is renamed. -/
def Renaming.Names (r : Renaming) (s : Scopes) : Prop :=
  ∃ c, s.find? r.context = some c ∧ c.slotOf? r.old = some r.slot

/-- An identifier is bound to the slot of the variable exactly if it is bound to its context and has
its name. -/
theorem Renaming.Names.bound_iff {r : Renaming} {s final : Scopes} (hr : r.Names final)
    (hs : s.Grows final) {depth i : Nat} {name : String} {b : Binding}
    (hb : s.lookupFrom depth i name = some b) :
    (b.context = r.context ∧ b.slot = r.slot) ↔ (b.context = r.context ∧ name = r.old) := by
  obtain ⟨c, hc, hname, hslot⟩ := Scopes.lookupFrom_spec hb
  obtain ⟨c₁, hc₁, hp⟩ := hs _ c hc
  obtain ⟨c₂, hc₂, hold⟩ := hr
  rw [Context.slotOf?_eq] at hold
  split at hold
  next hmem =>
    injection hold with hold
    rw [← hslot, ← hold, hp.idxOf_eq_of_mem hname]
    refine and_congr_right fun hk => ?_
    rw [hk, hc₂] at hc₁
    cases hc₁
    exact List.idxOf_inj (hp.subset hname)
  next => cases hold

namespace Tree

theorem resolve_grows {share : Bool} {t : Tree} {active : Nat} {w : Walk}
    (ha : active < w.scopes.size) (he : (t.resolve share active w).error = none) :
    w.scopes.Grows (t.resolve share active w).walk.scopes :=
  Scopes.grows_of_outline (resolve_outline share t ha he) t.prefix_namesAfter

theorem resolveAll_grows {share : Bool} {ts : List Tree} {active : Nat} {w : Walk}
    (ha : active < w.scopes.size) (he : (resolveAll share active [] ts w).error = none) :
    w.scopes.Grows (resolveAll share active [] ts w).walk.scopes :=
  Scopes.grows_of_outline (resolveAll_outline share ts ha he) (prefix_namesAfterAll ts)

theorem size_resolve {share : Bool} {t : Tree} {active : Nat} {w : Walk}
    (ha : active < w.scopes.size) (he : (t.resolve share active w).error = none) :
    active < (t.resolve share active w).walk.scopes.size := by
  rw [size_of_outline (resolve_outline share t ha he)]
  omega

end Tree

/-! ## Two walks -/

/-- The first walk, over a renamed tree, does what the second one does. -/
structure Resolved.Follows (r : Renaming) (a b : Resolved Tree) : Prop where
  /-- It succeeds. -/
  error : a.error = none
  /-- Its arena is that of the second one but for the name. -/
  scopes : b.walk.scopes.RenamedTo r a.walk.scopes
  /-- The code for the tree is the same, if it is an expression. -/
  expression : ∀ acc, a.value.emitExpression acc = b.value.emitExpression acc
  /-- The code for the tree is the same, if it is a statement. -/
  statement : ∀ {final final' : Scopes}, final.RenamedTo r final' →
    ∀ acc, a.value.emitStatement final' acc = b.value.emitStatement final acc

/-- The first walk, over renamed statements, does what the second one does. -/
structure Resolved.FollowAll (r : Renaming) (a b : Resolved (List Tree)) : Prop where
  /-- It succeeds. -/
  error : a.error = none
  /-- Its arena is that of the second one but for the name. -/
  scopes : b.walk.scopes.RenamedTo r a.walk.scopes
  /-- The code for the statements is the same. -/
  statements : ∀ {final final' : Scopes}, final.RenamedTo r final' →
    ∀ acc, Tree.emitStatements final' a.value acc = Tree.emitStatements final b.value acc

namespace Tree

theorem emitStatement_block_follows {r : Renaming} {final final' : Scopes} {site site' : Site}
    {body body' : List Tree} (h : final.RenamedTo r final') (hs : site'.location = site.location)
    (hbody : ∀ acc, emitStatements final' body' acc = emitStatements final body acc) (id : Nat)
    (acc : Code) :
    (block (site'.within id) body').emitStatement final' acc =
      (block (site.within id) body).emitStatement final acc := by
  simp only [emitStatement, Site.within, hs, hbody]
  cases hc : final.find? id with
  | none => rw [h.find?_none hc]
  | some c =>
      obtain ⟨c', hc', hrel⟩ := h.find? hc
      simp only [hc', hrel.isGlobal]

theorem emitStatement_declaration_follows {r : Renaming} {final final' : Scopes}
    {site site' : Site} {init init' : Tree} (h : final.RenamedTo r final')
    (hs : site'.location = site.location)
    (hinit : ∀ acc, init'.emitExpression acc = init.emitExpression acc) (id slot : Nat)
    (name name' : String) (acc : Code) :
    (declaration (site'.within id) name' (some slot) init').emitStatement final' acc =
      (declaration (site.within id) name (some slot) init).emitStatement final acc := by
  simp only [emitStatement, Site.within, hs, hinit]
  cases hc : final.find? id with
  | none => rw [h.find?_none hc]
  | some c =>
      obtain ⟨c', hc', hrel⟩ := h.find? hc
      simp only [hc', hrel.isGlobal]

theorem size_declare (w : Walk) (active : Nat) (name : String) :
    (w.declare active name).1.scopes.size = w.scopes.size := by
  simp only [Walk.declare, Scopes.declare]
  split
  next => rfl
  next =>
    split
    next => rfl
    next => simp [Scopes.size, Scopes.modify]

theorem bareAll_eq_cons {us : List Tree} {t : Tree} {ts : List Tree} (h : bareAll us = t :: ts) :
    ∃ t' us', us = t' :: us' ∧ t'.bare = t ∧ bareAll us' = ts := by
  cases us with
  | nil => cases h
  | cons t' us' =>
      rw [bareAll] at h
      injection h with ht hts
      exact ⟨t', us', rfl, ht, hts⟩

mutual

/-- Resolving a renamed tree follows resolving the tree.  `last` is the arena at the end of the
whole walk. -/
theorem resolve_rename (share : Bool) {r : Renaming} {last : Scopes} (hr : r.Names last) :
    ∀ (t : Tree) {t' : Tree} {active : Nat} {w w' : Walk}, active < w.scopes.size →
      r.new ∉ t.mentions → (t.resolve share active w).error = none →
      (t.resolve share active w).walk.scopes.Grows last → w.scopes.RenamedTo r w'.scopes →
      t'.bare = ((t.resolve share active w).value.rename r).bare →
      (t'.resolve share active w').Follows r (t.resolve share active w)
  | block site body, t', active, w, w', ha, hz, he, hl, hw, hb => by
      rw [resolve_block] at he hl hb ⊢
      rw [rename, bare] at hb
      obtain ⟨site', body', rfl, hs, hbody⟩ := bare_eq_block hb
      have hs : site'.location = site.location := hs
      have hsize : w'.scopes.size = w.scopes.size := hw.size
      have hlt : w.scopes.size < (w.enter (some active) site.location).scopes.size := by
        simp [Walk.enter, Scopes.size, Scopes.push]
      have hw' : (w.enter (some active) site.location).scopes.RenamedTo r
          (w'.enter (some active) site.location).scopes := hw.push (some active) site.location
      have ih := resolveAll_rename share hr body hlt hz he hl hw' hbody
      rw [resolve_block, hsize, hs]
      refine ⟨ih.error, ih.scopes, ?_, ?_⟩
      · intro acc
        simp only [emitExpression, kindName, location, Tree.site, Site.within, hs]
      · intro final final' h acc
        exact emitStatement_block_follows h hs (ih.statements h) _ acc
  | declaration site name slot init, t', active, w, w', ha, hz, he, hl, hw, hb => by
      obtain ⟨hne, hz⟩ := not_or.1 (fun h => hz (List.mem_cons.2 h))
      rw [resolve_declaration] at he hl hb ⊢
      rw [rename, bare] at hb
      obtain ⟨site', slot', init', rfl, hs, hinit⟩ := bare_eq_declaration hb
      have hs : site'.location = site.location := hs
      have hname : (if (site.within active).context = some r.context ∧ name = r.old then r.new
          else name) = r.apply active name := by
        simp [Renaming.apply, Site.within]
      obtain ⟨hw', hslot⟩ : (w.declare active name).1.scopes.RenamedTo r
            (w'.declare active (r.apply active name)).1.scopes ∧
          (w'.declare active (r.apply active name)).2 = (w.declare active name).2 :=
        hw.declare active (Ne.symm hne)
      have ih := resolve_rename share hr init (by rw [size_declare]; exact ha) hz he hl hw' hinit
      rw [resolve_declaration, hname]
      refine ⟨ih.error, ih.scopes, ?_, ?_⟩
      · intro acc
        simp only [emitExpression, kindName, location, Tree.site, Site.within, hs]
      · intro final final' h acc
        rw [hslot]
        exact emitStatement_declaration_follows h hs ih.expression _ _ _ _ acc
  | operation site op left right, t', active, w, w', ha, hz, he, hl, hw, hb => by
      obtain ⟨hzl, hzr⟩ := not_or.1 (fun h => hz (List.mem_append.2 h))
      obtain ⟨hel, her⟩ := resolve_operation_ok he
      rw [resolve_operation hel] at hl hb ⊢
      rw [rename, bare] at hb
      obtain ⟨site', left', right', rfl, hs, hbl, hbr⟩ := bare_eq_operation hb
      have hs : site'.location = site.location := hs
      have ha' := size_resolve ha hel
      have ihl := resolve_rename share hr left ha hzl hel ((resolve_grows ha' her).trans hl) hw hbl
      have ihr := resolve_rename share hr right ha' hzr her hl ihl.scopes hbr
      rw [resolve_operation ihl.error]
      refine ⟨ihr.error, ihr.scopes, ?_, ?_⟩
      · intro acc
        simp only [emitExpression, ihl.expression, ihr.expression, Site.within, hs]
      · intro final final' _ acc
        simp only [emitStatement, kindName, location, Tree.site, Site.within, hs]
  | identifier site name binding, t', active, w, w', ha, hz, he, hl, hw, hb => by
      have hne : name ≠ r.new := fun h => hz (List.mem_singleton.2 h.symm)
      cases hlook : w.scopes.lookup active name with
      | none =>
          rw [resolve, hlook] at he
          cases he
      | some b =>
          simp only [resolve, hlook] at hl hb ⊢
          rw [rename, bare] at hb
          obtain ⟨site', binding', rfl, hs⟩ := bare_eq_identifier hb
          have hs : site'.location = site.location := hs
          have hname : (if (some b).any (fun b => b.context = r.context ∧ b.slot = r.slot)
              then r.new else name) = r.apply b.context name := by
            simp [Renaming.apply, hr.bound_iff hl hlook]
          -- The slot is that of the variable only if the name is, so the new name is looked for
          -- exactly where the arena of the renamed tree has it.
          have hlook' : w'.scopes.lookup active (r.apply b.context name) = some b :=
            (hw.lookupFrom hne hlook).2
          simp only [hname, resolve, hlook']
          refine ⟨rfl, hw, fun acc => rfl, ?_⟩
          intro final final' _ acc
          simp only [emitStatement, kindName, location, Tree.site, Site.within, hs]
  | literal site value constant, t', active, w, w', ha, hz, he, hl, hw, hb => by
      cases hv : value.inline? with
      | some n =>
          simp only [resolve, hv] at hl hb ⊢
          rw [rename, bare] at hb
          obtain ⟨site', constant', rfl, hs⟩ := bare_eq_literal hb
          have hs : site'.location = site.location := hs
          simp only [resolve, hv]
          refine ⟨rfl, hw, ?_, ?_⟩
          · intro acc
            simp only [emitExpression, hv]
          · intro final final' _ acc
            simp only [emitStatement, kindName, location, Tree.site, Site.within, hs]
      | none =>
          simp only [resolve, hv] at hl hb ⊢
          rw [rename, bare] at hb
          obtain ⟨site', constant', rfl, hs⟩ := bare_eq_literal hb
          have hs : site'.location = site.location := hs
          obtain ⟨hw', hplace⟩ : (w.hoist share active value).1.scopes.RenamedTo r
                (w'.hoist share active value).1.scopes ∧
              (w'.hoist share active value).2 = (w.hoist share active value).2 :=
            hw.register share active value
          simp only [resolve, hv]
          refine ⟨rfl, hw', ?_, ?_⟩
          · intro acc
            simp only [emitExpression, hv, hplace]
          · intro final final' _ acc
            simp only [emitStatement, kindName, location, Tree.site, Site.within, hs]

theorem resolveAll_rename (share : Bool) {r : Renaming} {last : Scopes} (hr : r.Names last) :
    ∀ (ts : List Tree) {us : List Tree} {active : Nat} {w w' : Walk}, active < w.scopes.size →
      r.new ∉ mentionsAll ts → (resolveAll share active [] ts w).error = none →
      (resolveAll share active [] ts w).walk.scopes.Grows last → w.scopes.RenamedTo r w'.scopes →
      bareAll us = bareAll (renameAll r (resolveAll share active [] ts w).value) →
      (resolveAll share active [] us w').FollowAll r (resolveAll share active [] ts w)
  | [], us, active, w, w', ha, hz, he, hl, hw, hb => by
      cases us with
      | nil => exact ⟨rfl, hw, fun _ _ => rfl⟩
      | cons u us => cases hb
  | t :: ts, us, active, w, w', ha, hz, he, hl, hw, hb => by
      obtain ⟨hzt, hzts⟩ := not_or.1 (fun h => hz (List.mem_append.2 h))
      obtain ⟨het, hets⟩ := resolveAll_cons_ok he
      rw [resolveAll_cons het] at hl hb ⊢
      rw [renameAll, bareAll] at hb
      obtain ⟨t', us', rfl, hbt, hbts⟩ := bareAll_eq_cons hb
      have ha' := size_resolve ha het
      have iht := resolve_rename share hr t ha hzt het ((resolveAll_grows ha' hets).trans hl) hw hbt
      have ihts := resolveAll_rename share hr ts ha' hzts hets hl iht.scopes hbts
      rw [resolveAll_cons iht.error]
      refine ⟨ihts.error, ihts.scopes, ?_⟩
      intro final final' h acc
      simp only [emitStatements, iht.statement h, ihts.statements h]

end

end Tree

/-! ## Programs -/

namespace Program

/-- Renames a variable in a program with notes. -/
def rename (r : Renaming) (p : Program) : Program := ⟨p.site, Tree.renameAll r p.body⟩

/-- The names in a program. -/
def mentions (p : Program) : List String := Tree.mentionsAll p.body

theorem bare_resolve {p : Program} {share : Bool} (h : (p.resolve share).error = none) :
    (p.resolve share).value.bare = p.bare := by
  have hbody := Tree.bareAll_resolveAll share p.body h
  simp only [bare, resolve]
  rw [hbody]
  rfl

/-- Compiling a renamed program follows compiling the program. -/
theorem compile_follows {p q : Program} {s : Settings} {c : Compilation} {r : Renaming}
    (h : p.compile s = .ok c) (hr : r.Names c.scopes) (hz : r.new ∉ p.mentions)
    (hq : q.bare = ((p.resolve s.dedupeConstants).value.rename r).bare) :
    ∃ c', q.compile s = .ok c' ∧ c'.code = c.code ∧ c.scopes.RenamedTo r c'.scopes := by
  obtain ⟨he, hs, hemit⟩ := compile_ok_iff.1 h
  have hsite : q.bare.site.location = p.bare.site.location := by rw [hq]; rfl
  have hsite : q.site.location = p.site.location := hsite
  have hstart : p.start.scopes.RenamedTo r q.start.scopes := by
    rw [start, start, hsite]
    exact (Scopes.RenamedTo.empty r).push none p.site.location
  have hlast : (p.resolve s.dedupeConstants).walk.scopes.Grows c.scopes := hs ▸ .refl _
  have hall :=
    Tree.resolveAll_rename s.dedupeConstants hr p.body p.visible_start.lt_size hz he hlast hstart
      (congrArg Program.body hq)
  have hrel : c.scopes.RenamedTo r (q.resolve s.dedupeConstants).walk.scopes := hs ▸ hall.scopes
  refine ⟨⟨_, c.code⟩, compile_ok_iff.2 ⟨hall.error, rfl, ?_⟩, rfl, hrel⟩
  rw [← hemit]
  exact Tree.emitStatement_block_follows hrel hsite (hall.statements hrel) 0 #[]

/-- The variable `r.old` of the block whose context is `r.context` is renamed to a name that the
program does not have: in its declarations in that block, and in the identifiers that resolution
binds to its slot.  The renamed program compiles to the same code and the same constants, and its
contexts differ in nothing but this name, which has the slot of the old one. -/
theorem compile_rename {p q : Program} {s : Settings} {c : Compilation} {r : Renaming} {b : Context}
    (h : p.compile s = .ok c) (hb : c.scopes.find? r.context = some b)
    (hslot : b.slotOf? r.old = some r.slot) (hz : r.new ∉ p.mentions)
    (hq : q.bare = ((p.resolve s.dedupeConstants).value.rename r).bare) :
    (p.resolve s.dedupeConstants).value.bare = p.bare ∧
    ∃ c', q.compile s = .ok c' ∧ c'.code = c.code ∧
      c'.scopes.constants = c.scopes.constants ∧ c'.scopes.size = c.scopes.size ∧
      ∀ i x, c.scopes.find? i = some x →
        ∃ x', c'.scopes.find? i = some x' ∧ x'.parent = x.parent ∧ x'.owner = x.owner ∧
          x'.constants.entries = x.constants.entries ∧
          x'.names.entries =
            x.names.entries.map fun n => if i = r.context ∧ n = r.old then r.new else n := by
  obtain ⟨c', hc', hcode, hrel⟩ := compile_follows h ⟨b, hb, hslot⟩ hz hq
  refine ⟨bare_resolve (compile_ok_iff.1 h).1, c', hc', hcode, hrel.constants, hrel.size, ?_⟩
  intro i x hx
  obtain ⟨x', hx', hctx⟩ := hrel.find? hx
  refine ⟨x', hx', hctx.parent, hctx.owner, hctx.constants, ?_⟩
  apply Array.toList_inj.1
  rw [Array.toList_map]
  exact hctx.names

/-- The variable `a` of the block inside `Program.shadowing` is renamed, but not its use before it
is declared there. -/
theorem compile_rename_shadowing :
    ∃ c b, shadowing.compile {} = .ok c ∧ c.scopes.find? 1 = some b ∧
      b.slotOf? "a" = some 1 ∧ "z" ∉ shadowing.mentions ∧
      ∃ c' b', Program.compile {} ((shadowing.resolve false).value.rename ⟨1, 1, "a", "z"⟩) =
          .ok c' ∧
        c'.code = c.code ∧ c'.scopes.find? 1 = some b' ∧ b'.names.entries = #["b", "z"] := by
  obtain ⟨code, hlow⟩ := lowers_shadowing
  obtain ⟨c, hc, -, -⟩ := compile_of_lowers (s := {}) hlow
  have houtline : c.scopes.outline[1]? = some ⟨some 0, Site.nowhere.location, ["b", "a"]⟩ := by
    rw [(lowers_of_compile hc).2]
    rfl
  obtain ⟨b, hb, hbo⟩ := Scopes.find?_of_outline houtline
  have hnames : b.nameList = ["b", "a"] := congrArg Outline.names hbo
  have hslot : b.slotOf? "a" = some 1 := by
    rw [Context.slotOf?_eq, hnames]
    rfl
  have hz : "z" ∉ shadowing.mentions := by decide
  obtain ⟨-, c', hc', hcode, -, -, hall⟩ :=
    compile_rename (r := ⟨1, 1, "a", "z"⟩) hc hb hslot hz rfl
  obtain ⟨b', hb', -, -, -, hentries⟩ := hall 1 b hb
  have hold : b.names.entries = #["b", "a"] := Array.toList_inj.1 hnames
  exact ⟨c, b, hc, hb, hslot, hz, c', b', hc', hcode, hb', by rw [hentries, hold]; simp⟩

end Program

end BlockScript
