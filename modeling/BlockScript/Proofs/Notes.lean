import BlockScript.Proofs.Scoping

/-!
# Notes that a tree has already

A tree may come to resolution with notes in it: made by hand, by an earlier run under other
settings, or by a run that failed.  Resolution writes over them and reads none.  In two places an
old note stays: at an identifier that means nothing, where resolution ends, and at a number that
stands in the code itself, where code generation does not look.

So a program compiles to the same with and without its notes (`Program.compile_bare`).  The two
resolutions are compared in one induction (`Tree.resolve_bare`); what they leave differs only in
constants that code generation does not read (`Tree.tidy`).  To resolve a resolved program again
changes nothing (`Program.resolve_resolve`), and behind an error every node is as it was
(`Program.drop_nodes_resolve`).
-/

namespace BlockScript

/-! ## Notes that are not read -/

namespace Tree

mutual

/-- The tree without constants at numbers that stand in the code itself. -/
def tidy : Tree → Tree
  | block site body => block site (tidyAll body)
  | declaration site name slot init => declaration site name slot init.tidy
  | operation site op left right => operation site op left.tidy right.tidy
  | identifier site name binding => identifier site name binding
  | literal site value constant =>
    literal site value (if value.inline?.isSome then none else constant)

/-- Trees without constants at numbers that stand in the code itself. -/
def tidyAll : List Tree → List Tree
  | [] => []
  | t :: ts => t.tidy :: tidyAll ts

end

/-- These constants do not matter to the code of an expression. -/
theorem emitExpression_tidy : ∀ (t : Tree) (code : Code),
    t.tidy.emitExpression code = t.emitExpression code
  | block .., code => rfl
  | declaration .., code => rfl
  | operation site op left right, code => by
      simp only [tidy, emitExpression, emitExpression_tidy left, emitExpression_tidy right]
  | identifier .., code => rfl
  | literal site value constant, code => by
      cases hv : value.inline? with
      | some n => simp only [tidy, emitExpression, hv]
      | none => simp [tidy, emitExpression, hv]

mutual

/-- Nor do they to the code of a statement. -/
theorem emitStatement_tidy (scopes : Scopes) : ∀ (t : Tree) (code : Code),
    t.tidy.emitStatement scopes code = t.emitStatement scopes code
  | block site body, code => by
      simp only [tidy, emitStatement, emitStatements_tidy scopes body]
  | declaration site name slot init, code => by
      simp only [tidy, emitStatement, emitExpression_tidy init]
  | operation .., code => rfl
  | identifier .., code => rfl
  | literal .., code => rfl

theorem emitStatements_tidy (scopes : Scopes) : ∀ (ts : List Tree) (code : Code),
    emitStatements scopes (tidyAll ts) code = emitStatements scopes ts code
  | [], code => rfl
  | t :: ts, code => by
      simp only [tidyAll, emitStatements, emitStatement_tidy scopes t,
        emitStatements_tidy scopes ts]

end

end Tree

/-! ## Resolving without notes -/

/-- The result `r` of resolving `a` with its notes compared to the result `r'` without them. -/
structure Resolved.Matches {α : Type} (bare tidy : α → α) (a : α) (r r' : Resolved α) : Prop where
  /-- The walks do the same. -/
  walk : r'.walk = r.walk
  /-- They stop at the same identifier, or at none. -/
  error : r'.error = r.error
  /-- Nothing but notes has changed. -/
  bare_value : bare r.value = bare a
  /-- Without an error, the new notes are the same. -/
  tidy_value : r.error = none → r'.value = tidy r.value

namespace Tree

mutual

/-- Resolution does not read the notes of a tree. -/
theorem resolve_bare (share : Bool) : ∀ (t : Tree) (active : Nat) (w : Walk),
    Resolved.Matches bare tidy t (t.resolve share active w) (t.bare.resolve share active w)
  | block site body, active, w => by
      obtain ⟨hwalk, herror, hbare, htidy⟩ :=
        resolveAll_bare share body w.scopes.size (w.enter (some active) site.location)
      rw [bare, resolve_block, resolve_block]
      refine ⟨hwalk, herror, ?_, ?_⟩
      · rw [bare, hbare]
        rfl
      · intro he
        exact congrArg (block _) (htidy he)
  | declaration site name slot init, active, w => by
      obtain ⟨hwalk, herror, hbare, htidy⟩ :=
        resolve_bare share init active (w.declare active name).1
      rw [bare, resolve_declaration, resolve_declaration]
      refine ⟨hwalk, herror, ?_, ?_⟩
      · rw [bare, hbare]
        rfl
      · intro he
        exact congrArg (declaration _ _ _) (htidy he)
  | operation site op left right, active, w => by
      obtain ⟨hwalk, herror, hbare, htidy⟩ := resolve_bare share left active w
      cases he : (left.resolve share active w).error with
      | some e =>
          rw [he] at herror
          simp only [bare, resolve, he, herror]
          refine ⟨hwalk, rfl, ?_, nofun⟩
          rw [bare, hbare]
          rfl
      | none =>
          rw [he] at herror
          obtain ⟨hwalkr, herrorr, hbarer, htidyr⟩ :=
            resolve_bare share right active (left.resolve share active w).walk
          rw [bare, resolve_operation he, resolve_operation herror, hwalk, htidy he]
          refine ⟨hwalkr, herrorr, ?_, ?_⟩
          · rw [bare, hbare, hbarer]
            rfl
          · intro her
            exact congrArg (operation _ _ _) (htidyr her)
  | identifier site name binding, active, w => by
      rw [bare, resolve, resolve]
      cases w.scopes.lookup active name with
      | some b => exact ⟨rfl, rfl, rfl, fun _ => rfl⟩
      | none => exact ⟨rfl, rfl, rfl, nofun⟩
  | literal site value constant, active, w => by
      rw [bare, resolve, resolve]
      cases hv : value.inline? with
      | some n => exact ⟨rfl, rfl, rfl, fun _ => by simp [tidy, hv, Site.within, Site.bare]⟩
      | none => exact ⟨rfl, rfl, rfl, fun _ => by simp [tidy, hv, Site.within, Site.bare]⟩

theorem resolveAll_bare (share : Bool) : ∀ (ts : List Tree) (active : Nat) (w : Walk),
    Resolved.Matches bareAll tidyAll ts (resolveAll share active [] ts w)
      (resolveAll share active [] (bareAll ts) w)
  | [], active, w => ⟨rfl, rfl, rfl, fun _ => rfl⟩
  | t :: ts, active, w => by
      obtain ⟨hwalk, herror, hbare, htidy⟩ := resolve_bare share t active w
      rw [bareAll]
      cases he : (t.resolve share active w).error with
      | some e =>
          rw [he] at herror
          rw [resolveAll_cons_error he, resolveAll_cons_error herror]
          refine ⟨hwalk, rfl, ?_, nofun⟩
          rw [bareAll, bareAll, hbare]
      | none =>
          rw [he] at herror
          obtain ⟨hwalks, herrors, hbares, htidys⟩ :=
            resolveAll_bare share ts active (t.resolve share active w).walk
          rw [resolveAll_cons he, resolveAll_cons herror, hwalk, htidy he]
          refine ⟨hwalks, herrors, ?_, ?_⟩
          · rw [bareAll, bareAll, hbare, hbares]
          · intro hes
            exact congrArg (_ :: ·) (htidys hes)

end

/-! ## Resolving again -/

mutual

/-- To resolve a resolved tree from the same arena gives the same once more. -/
theorem resolve_resolve (share : Bool) : ∀ (t : Tree) {active : Nat} {w : Walk},
    (t.resolve share active w).error = none →
    (t.resolve share active w).value.resolve share active w = t.resolve share active w
  | block site body, active, w, he => by
      rw [resolve_block] at he ⊢
      have ih := resolveAll_resolveAll share body he
      rw [resolve_block]
      simp only [Site.within, ih]
  | declaration site name slot init, active, w, he => by
      rw [resolve_declaration] at he ⊢
      have ih := resolve_resolve share init he
      rw [resolve_declaration, ih]
      rfl
  | operation site op left right, active, w, he => by
      obtain ⟨hl, hr⟩ := resolve_operation_ok he
      have ihl := resolve_resolve share left hl
      have ihr := resolve_resolve share right hr
      rw [resolve_operation hl, resolve_operation (by rw [ihl]; exact hl), ihl, ihr]
      rfl
  | identifier site name binding, active, w, he => by
      cases hb : w.scopes.lookup active name with
      | none =>
          rw [resolve, hb] at he
          cases he
      | some b =>
          simp only [resolve, hb]
          rfl
  | literal site value constant, active, w, he => by
      cases hv : value.inline? with
      | some n =>
          simp only [resolve, hv]
          rfl
      | none =>
          simp only [resolve, hv]
          rfl

theorem resolveAll_resolveAll (share : Bool) : ∀ (ts : List Tree) {active : Nat} {w : Walk},
    (resolveAll share active [] ts w).error = none →
    resolveAll share active [] (resolveAll share active [] ts w).value w =
      resolveAll share active [] ts w
  | [], active, w, he => rfl
  | t :: ts, active, w, he => by
      obtain ⟨ht, hts⟩ := resolveAll_cons_ok he
      have iht := resolve_resolve share t ht
      have ihts := resolveAll_resolveAll share ts hts
      rw [resolveAll_cons ht, resolveAll_cons (by rw [iht]; exact ht), iht, ihts]

end

end Tree

/-! ## Behind an error -/

/-- A pass that stops at a node leaves those behind it as they are. -/
theorem Pass.drop_nodes (share : Bool) {ns : List Node} {i : Nat} {n : Node} {e : Undeclared} :
    ∀ before : List Node, ns[i]? = some n →
      n.undeclared? (History.ofNodes share (before ++ ns.take i)).scopes = some e →
      Throughout (fun front n => n.undeclared? (History.ofNodes share front).scopes = none)
        before (ns.take i) →
      (along share (History.ofNodes share before).scopes ns).nodes.drop (i + 1) =
        ns.drop (i + 1) := by
  induction ns generalizing i with
  | nil => nofun
  | cons m ns ih =>
      intro before hn he hfront
      cases i with
      | zero =>
          cases hn
          rw [List.take_zero, List.append_nil] at he
          rw [along_cons_error he]
          rfl
      | succ i =>
          rw [List.take_succ_cons, throughout_cons] at hfront
          rw [along_cons hfront.1, ← History.scopes_concat]
          exact ih _ hn (by simpa using he) hfront.2

/-! ## Programs -/

namespace Program

variable {p q : Program}

theorem resolve_bare (p : Program) (share : Bool) :
    (p.bare.resolve share).walk = (p.resolve share).walk ∧
      (p.bare.resolve share).error = (p.resolve share).error ∧
      (p.resolve share).value.bare = p.bare ∧
      ((p.resolve share).error = none →
        (p.bare.resolve share).value.body = Tree.tidyAll (p.resolve share).value.body) := by
  obtain ⟨hwalk, herror, hbare, htidy⟩ := Tree.resolveAll_bare share p.body 0 p.start
  refine ⟨hwalk, herror, ?_, htidy⟩
  rw [bare, bare]
  exact congrArg (Program.mk _) hbare

/-- A program compiles to the same with and without its notes. -/
theorem compile_bare (p : Program) (s : Settings) : p.bare.compile s = p.compile s := by
  obtain ⟨hwalk, herror, -, htidy⟩ := p.resolve_bare s.dedupeConstants
  cases he : (p.resolve s.dedupeConstants).error with
  | some e => rw [compile_of_unresolved he, compile_of_unresolved (herror.trans he)]
  | none =>
      have herror := herror.trans he
      have hemit : (p.bare.resolve s.dedupeConstants).value.emit
            (p.bare.resolve s.dedupeConstants).walk.scopes #[] =
          (p.resolve s.dedupeConstants).value.emit
            (p.resolve s.dedupeConstants).walk.scopes #[] := by
        rw [emit_resolve he, emit_resolve herror, hwalk, htidy he, Tree.emitStatements_tidy]
      cases hcode : (p.resolve s.dedupeConstants).value.emit
          (p.resolve s.dedupeConstants).walk.scopes #[] with
      | error e =>
          rw [compile_of_emit_error he hcode, compile_of_emit_error herror (hemit.trans hcode)]
      | ok code =>
          have hc : p.compile s = .ok ⟨(p.resolve s.dedupeConstants).walk.scopes, code⟩ :=
            compile_ok_iff.2 ⟨he, rfl, hcode⟩
          rw [hc]
          exact compile_ok_iff.2 ⟨herror, congrArg Walk.scopes hwalk, hwalk ▸ hemit.trans hcode⟩

theorem compile_eq_of_bare_eq (h : p.bare = q.bare) (s : Settings) : p.compile s = q.compile s := by
  rw [← compile_bare p, h, compile_bare q]

/-- To resolve a resolved program again changes nothing. -/
theorem resolve_resolve {share : Bool} (h : (p.resolve share).error = none) :
    (p.resolve share).value.resolve share = p.resolve share := by
  have hbody : Tree.resolveAll share 0 [] (Tree.resolveAll share 0 [] p.body p.start).value
      p.start = Tree.resolveAll share 0 [] p.body p.start :=
    Tree.resolveAll_resolveAll share p.body h
  exact congrArg (fun r => (⟨⟨p.site.within 0, r.value⟩, r.walk, r.error⟩ : Resolved Program)) hbody

/-- Behind the first use that is not well scoped every node is as it was. -/
theorem drop_nodes_resolve {i : Nat} {n : Node} (hi : p.nodes[i]? = some n)
    (hn : ¬ n.WellScoped (p.nodes.take i))
    (hfront : Throughout Node.WellScoped [] (p.nodes.take i)) (share : Bool) :
    (p.resolve share).value.nodes.drop (i + 1) = p.nodes.drop (i + 1) := by
  have hbefore := p.nodes_placed.take i
  rw [← undeclared?_eq_none_iff hbefore (p.nodes_placed i n hi) share] at hn
  obtain ⟨e, he⟩ := Option.ne_none_iff_exists'.1 hn
  have hdrop := Pass.drop_nodes share [] hi he
    ((undeclared?_throughout_iff hbefore share).2 hfront)
  rwa [along_nodes] at hdrop

/-- The notes that a tree has do not matter, and nothing but notes is ever changed.

Two programs that are the same without notes compile to the same, so a program that was resolved
before, under whatever settings and with whatever success, compiles as it did without.  Resolution
leaves the program without notes as it was.  If it succeeds, doing it again changes nothing.  If it
fails, the nodes behind the first use that is not well scoped have the notes that they had. -/
theorem compile_notes {p q : Program} (h : p.bare = q.bare) (s : Settings) (share : Bool) :
    p.compile s = q.compile s ∧
    (p.resolve share).value.compile s = p.compile s ∧
    (p.resolve share).value.bare = p.bare ∧
    ((p.resolve share).error = none →
      (p.resolve share).value.resolve share = p.resolve share) ∧
    ∀ e, (p.resolve share).error = some e →
      ∃ (i : Nat) (n : Node), p.nodes[i]? = some n ∧ ¬ n.WellScoped (p.nodes.take i) ∧
        (∃ site binding, n.label = .identifier site e.name binding ∧ site.location = e.location) ∧
        Throughout Node.WellScoped [] (p.nodes.take i) ∧
        (p.resolve share).value.nodes.drop (i + 1) = p.nodes.drop (i + 1) := by
  obtain ⟨-, -, hbare, -⟩ := p.resolve_bare share
  refine ⟨compile_eq_of_bare_eq h s, compile_eq_of_bare_eq hbare s, hbare, resolve_resolve, ?_⟩
  intro e he
  obtain ⟨i, n, hi, hn, hlabel, hfront⟩ := (illScoped_iff p share e).1 he
  exact ⟨i, n, hi, hn, hlabel, hfront, drop_nodes_resolve hi hn hfront share⟩

/-- The program `var a = 7; var b = a;` with notes that are not its own. -/
def misnoted : Program where
  site := ⟨Site.nowhere.location, some 4⟩
  body := [
    .declaration ⟨Site.nowhere.location, some 9⟩ "a" (some 5)
      (.literal .nowhere (.integer 7) (some 3)),
    .declaration .nowhere "b" none
      (.identifier ⟨Site.nowhere.location, some 2⟩ "a" (some ⟨8, 6, .frame 1⟩))]

/-- The program `var a = b + 0.5;` with a note at the number. -/
def astray : Program where
  site := .nowhere
  body := [.declaration .nowhere "a" none (.operation .nowhere (.arithmetic .add)
    (.identifier .nowhere "b" none) (.literal .nowhere (.float ⟨0x3FE0000000000000⟩) (some 3)))]

theorem compile_notes_misnoted :
    misnoted.bare = misnoted.bare.bare ∧ misnoted.compile {} = misnoted.bare.compile {} ∧
    (misnoted.resolve true).error = none ∧
    (misnoted.resolve true).value.resolve true = misnoted.resolve true ∧
    (astray.resolve false).error = some ⟨"b", Site.nowhere.location⟩ ∧
    (astray.resolve false).value.nodes.drop 4 =
      [⟨.literal .nowhere (.float ⟨0x3FE0000000000000⟩) (some 3), [0]⟩] := by
  have hbare : misnoted.bare = misnoted.bare.bare := rfl
  have hok : (misnoted.resolve true).error = none := (wellScoped_iff misnoted true).2 (by decide)
  obtain ⟨hcompile, -, -, hagain, -⟩ := compile_notes hbare {} true
  have herror : (astray.resolve false).error = some ⟨"b", Site.nowhere.location⟩ :=
    (illScoped_iff astray false _).2 ⟨3, _, rfl, by decide, ⟨_, _, rfl, rfl⟩, by decide⟩
  obtain ⟨-, -, -, -, hbehind⟩ := compile_notes (p := astray) rfl {} false
  obtain ⟨i, n, hi, hn, -, -, hdrop⟩ := hbehind _ herror
  have honly : ∀ k : Fin astray.nodes.length,
      ¬ (astray.nodes.get k).WellScoped (astray.nodes.take k) → k.val = 3 := by decide
  obtain ⟨hlt, rfl⟩ := List.getElem?_eq_some_iff.1 hi
  obtain rfl : i = 3 := honly ⟨i, hlt⟩ hn
  exact ⟨hbare, hcompile, hok, hagain hok, herror, hdrop⟩

end Program

end BlockScript
