import BlockScript.Proofs.LineIndex
import BlockScript.Proofs.Parsing
import Mathlib.Data.List.Forall2

/-!
# Locations of nodes

Every node of a program but the outermost block and the operations starts with a token of its own:
a declaration with `var`, a block with its opening brace, a number and an identifier with the only
token that they have.  In the order of the source these tokens are those that `Token.heads` picks,
and in pre-order the nodes are the same, one for one (`Grammar.Statements.heads`).

So a node is located where its token is, which is where the line index of the source finds the
offset of the token (`Tokens.location_eq`).  An operation is located at its leftmost operand.  And
from one node to the next the location moves on.  The main statement is
`Program.parse_located`.
-/

namespace BlockScript

open Grammar

/-! ## Nodes and their tokens -/

namespace Tree

mutual

/-- The nodes of a tree in pre-order, each with its parts. -/
def subtrees : Tree → List Tree
  | block site body => block site body :: subtreesAll body
  | declaration site name slot init => declaration site name slot init :: init.subtrees
  | operation site op left right =>
    operation site op left right :: (left.subtrees ++ right.subtrees)
  | identifier site name binding => [identifier site name binding]
  | literal site value constant => [literal site value constant]

/-- The nodes of statements in pre-order. -/
def subtreesAll : List Tree → List Tree
  | [] => []
  | t :: ts => t.subtrees ++ subtreesAll ts

end

/-- Whether the tree is an operation. -/
def isOperation : Tree → Bool
  | operation .. => true
  | _ => false

/-- The leftmost operand in an operation. -/
def leftmost : Tree → Tree
  | operation _ _ left _ => left.leftmost
  | t => t

/-- The nodes that start with a token of their own, in pre-order. -/
def headed (t : Tree) : List Tree := t.subtrees.filter (!·.isOperation)

/-- The nodes of statements that start with a token of their own. -/
def headedAll (ts : List Tree) : List Tree := (subtreesAll ts).filter (!·.isOperation)

/-- The node is one that starts with a token of this kind. -/
def HeadedBy : Tree → Token.Kind → Prop
  | block .., k => k = .leftBrace
  | declaration .., k => k = .var
  | operation .., _ => False
  | identifier _ name _, k => k = .identifier name
  | literal _ value _, k => (∃ n : Nat, value = .integer n ∧ k = .integer n) ∨
      ∃ x, value = .float x ∧ k = .float x

theorem headed_operate (op : Operator) (left right : Tree) :
    (operate op left right).headed = left.headed ++ right.headed := by
  simp [headed, operate, subtrees, isOperation]

theorem headed_declaration (site : Site) (name : String) (slot : Option Nat) (init : Tree) :
    (declaration site name slot init).headed = declaration site name slot init :: init.headed := by
  rw [headed, subtrees, List.filter_cons_of_pos rfl]
  rfl

theorem headed_block (site : Site) (body : List Tree) :
    (block site body).headed = block site body :: headedAll body := by
  rw [headed, subtrees, List.filter_cons_of_pos rfl]
  rfl

theorem subtreesAll_append (ts us : List Tree) :
    subtreesAll (ts ++ us) = subtreesAll ts ++ subtreesAll us := by
  induction ts with
  | nil => rfl
  | cons t ts ih => rw [List.cons_append, subtreesAll, subtreesAll, ih, List.append_assoc]

theorem subtreesAll_singleton (t : Tree) : subtreesAll [t] = t.subtrees := by
  rw [subtreesAll, subtreesAll, List.append_nil]

theorem headedAll_append (ts us : List Tree) :
    headedAll (ts ++ us) = headedAll ts ++ headedAll us := by
  rw [headedAll, subtreesAll_append, List.filter_append]
  rfl

theorem headedAll_singleton (t : Tree) : headedAll [t] = t.headed := by
  rw [headedAll, subtreesAll_singleton]
  rfl

end Tree

/-- The tokens that nodes start with, in order.  The name behind `var` starts no node. -/
def Token.heads (afterVar : Bool) : List Token → List Token
  | [] => []
  | t :: ts =>
    match t.kind with
    | .var => t :: heads true ts
    | .identifier _ => if afterVar then heads false ts else t :: heads false ts
    | .leftBrace | .integer _ | .float _ => t :: heads false ts
    | _ => heads false ts

theorem Token.heads_sublist (ts : List Token) : ∀ afterVar, (heads afterVar ts).Sublist ts := by
  induction ts with
  | nil => exact fun _ => .slnil
  | cons t ts ih =>
      intro afterVar
      rw [heads]
      split
      next => exact (ih true).cons_cons t
      next =>
        split
        next => exact (ih false).cons t
        next => exact (ih false).cons_cons t
      next => exact (ih false).cons_cons t
      next => exact (ih false).cons_cons t
      next => exact (ih false).cons_cons t
      next => exact (ih false).cons t

/-! ## By the grammar -/

/-- The node starts with the token, and is located there. -/
def Tree.StartsAt (file : String) (x : Tree) (t : Token) : Prop :=
  x.HeadedBy t.kind ∧ x.location = .ofPosition file t.start

/-- Among the tokens those that nodes start with are the tokens of these nodes, whatever stands
behind. -/
def Heads (file : String) (ts : List Token) (xs : List Tree) : Prop :=
  ∃ hs, (∀ rest, Token.heads false (ts ++ rest) = hs ++ Token.heads false rest) ∧
    List.Forall₂ (Tree.StartsAt file) xs hs

namespace Heads

variable {file : String} {ts us : List Token} {xs ys : List Tree} {t : Token}

theorem nil : Heads file [] [] := ⟨[], fun _ => rfl, .nil⟩

theorem append (h : Heads file ts xs) (h' : Heads file us ys) :
    Heads file (ts ++ us) (xs ++ ys) := by
  obtain ⟨hs, hts, hxs⟩ := h
  obtain ⟨hs', hus, hys⟩ := h'
  refine ⟨hs ++ hs', fun rest => ?_, List.rel_append hxs hys⟩
  rw [List.append_assoc, hts, hus, List.append_assoc]

/-- A token that starts no node. -/
theorem skip (h : ∀ rest, Token.heads false (t :: rest) = Token.heads false rest)
    (h' : Heads file ts xs) : Heads file (t :: ts) xs := by
  obtain ⟨hs, hts, hxs⟩ := h'
  exact ⟨hs, fun rest => (h (ts ++ rest)).trans (hts rest), hxs⟩

/-- A token that starts a node. -/
theorem cons (h : ∀ rest, Token.heads false (t :: rest) = t :: Token.heads false rest) {x : Tree}
    (hx : x.StartsAt file t) (h' : Heads file ts xs) : Heads file (t :: ts) (x :: xs) := by
  obtain ⟨hs, hts, hxs⟩ := h'
  exact ⟨t :: hs, fun rest => (h (ts ++ rest)).trans (congrArg _ (hts rest)), .cons hx hxs⟩

end Heads

mutual

/-- The nodes of an expression start with the tokens that `Token.heads` picks. -/
theorem Grammar.Expression.heads {file : String} {p : Phrase} {ts : List Token} {x : Tree}
    (h : Expression file p ts x) : Heads file ts x.headed := by
  match h with
  | .integer hk => exact .cons (by simp [Token.heads, hk]) ⟨Or.inl ⟨_, rfl, hk⟩, rfl⟩ .nil
  | .float hk => exact .cons (by simp [Token.heads, hk]) ⟨Or.inr ⟨_, rfl, hk⟩, rfl⟩ .nil
  | .identifier hk => exact .cons (by simp [Token.heads, hk]) ⟨hk, rfl⟩ .nil
  | @Expression.parentheses _ l r ts x hl hx hr =>
      have hclose : Heads file [r] [] := .skip (by simp [Token.heads, hr]) .nil
      have hinside := hx.heads.append hclose
      rw [List.append_nil] at hinside
      exact .skip (by simp [Token.heads, hl]) hinside
  | .chain _ hx hops =>
      obtain ⟨ys, hys, hmore⟩ := hops.heads
      rw [hys]
      exact hx.heads.append hmore

theorem Grammar.Operations.heads {file : String} {p : Phrase} {ts : List Token} {x y : Tree}
    (h : Operations file p x ts y) : ∃ ys, y.headed = x.headed ++ ys ∧ Heads file ts ys := by
  match h with
  | .nil => exact ⟨[], (List.append_nil _).symm, .nil⟩
  | @Operations.cons _ _ op t _ _ _ z _ _ ht hz hops =>
      obtain ⟨ys, hys, hmore⟩ := hops.heads
      refine ⟨z.headed ++ ys, ?_, .skip ?_ (hz.heads.append hmore)⟩
      · rw [hys, Tree.headed_operate, List.append_assoc]
      · intro rest
        rw [Token.heads, ht]
        match op with
        | .arithmetic .add | .arithmetic .sub | .arithmetic .mul | .arithmetic .div => rfl
        | .equal | .notEqual => rfl

end

mutual

/-- The nodes of a statement start with the tokens that `Token.heads` picks. -/
theorem Grammar.Statement.heads {file : String} {ts : List Token} {x : Option Tree}
    (h : Statement file ts x) : Heads file ts (Tree.headedAll x.toList) := by
  match h with
  | .empty hk => exact .skip (by simp [Token.heads, hk]) .nil
  | @Statement.declaration _ v i q name ts us x hv hi hq hx hus =>
      have hend : Heads file us [] := by
        cases hus with
        | none => exact .nil
        | semicolon ht => exact .skip (by simp [Token.heads, ht]) .nil
      have hinit := hx.heads.append hend
      rw [List.append_nil] at hinit
      obtain ⟨hs, hts, hxs⟩ : Heads file (q :: (ts ++ us)) x.headed :=
        .skip (by simp [Token.heads, hq]) hinit
      -- the name stands behind `var`, and is passed over
      refine ⟨v :: hs, fun rest => ?_, ?_⟩
      · rw [List.cons_append, List.cons_append, Token.heads, hv]
        simp only [Token.heads, hi, if_true]
        exact congrArg _ (hts rest)
      · have hself : Tree.StartsAt file (.declaration (site file v) name none x) v := ⟨hv, rfl⟩
        rw [Option.toList_some, Tree.headedAll_singleton, Tree.headed_declaration]
        exact .cons hself hxs
  | @Statement.block _ l r us body hl hbody hr =>
      have hclose : Heads file [r] [] := .skip (by simp [Token.heads, hr]) .nil
      have hinside := hbody.heads.append hclose
      rw [List.append_nil] at hinside
      have hself : Tree.StartsAt file (.block (site file l) body) l := ⟨hl, rfl⟩
      rw [Option.toList_some, Tree.headedAll_singleton, Tree.headed_block]
      exact .cons (by simp [Token.heads, hl]) hself hinside

/-- The nodes of statements start with the tokens that `Token.heads` picks. -/
theorem Grammar.Statements.heads {file : String} {ts : List Token} {body : List Tree}
    (h : Statements file ts body) : Heads file ts (Tree.headedAll body) := by
  match h with
  | .nil => exact .nil
  | .cons hx h =>
      rw [Tree.headedAll_append]
      exact hx.heads.append h.heads

end

/-! ## Operations -/

namespace Tree

/-- The node is located at its leftmost operand.  Only an operation has others. -/
def AtLeftmost (x : Tree) : Prop := x.location = x.leftmost.location

theorem self_mem_subtrees (x : Tree) : x ∈ x.subtrees := by
  cases x with
  | _ => simp [subtrees]

theorem atLeftmost_operate {op : Operator} {x y : Tree} (hx : ∀ z ∈ x.subtrees, z.AtLeftmost)
    (hy : ∀ z ∈ y.subtrees, z.AtLeftmost) : ∀ z ∈ (operate op x y).subtrees, z.AtLeftmost := by
  intro z hz
  rw [operate, subtrees] at hz
  rcases List.mem_cons.1 hz with rfl | hz
  · have hself : x.location = x.leftmost.location := hx x x.self_mem_subtrees
    exact hself
  · rcases List.mem_append.1 hz with hz | hz
    · exact hx z hz
    · exact hy z hz

end Tree

mutual

theorem Grammar.Expression.atLeftmost {file : String} {p : Phrase} {ts : List Token} {x : Tree}
    (h : Expression file p ts x) : ∀ y ∈ x.subtrees, y.AtLeftmost := by
  match h with
  | .integer _ | .float _ | .identifier _ =>
      intro y hy
      rw [List.mem_singleton.1 hy]
      rfl
  | .parentheses _ hx _ => exact hx.atLeftmost
  | .chain _ hx hops => exact hops.atLeftmost hx.atLeftmost

theorem Grammar.Operations.atLeftmost {file : String} {p : Phrase} {ts : List Token} {x y : Tree}
    (h : Operations file p x ts y) (hx : ∀ z ∈ x.subtrees, z.AtLeftmost) :
    ∀ z ∈ y.subtrees, z.AtLeftmost := by
  match h with
  | .nil => exact hx
  | .cons _ _ hz hops => exact hops.atLeftmost (Tree.atLeftmost_operate hx hz.atLeftmost)

end

mutual

theorem Grammar.Statement.atLeftmost {file : String} {ts : List Token} {x : Option Tree}
    (h : Statement file ts x) : ∀ y ∈ Tree.subtreesAll x.toList, y.AtLeftmost := by
  match h with
  | .empty _ => exact nofun
  | .declaration _ _ _ hx _ =>
      rw [Option.toList_some, Tree.subtreesAll_singleton, Tree.subtrees]
      exact List.forall_mem_cons.2 ⟨rfl, hx.atLeftmost⟩
  | .block _ hbody _ =>
      rw [Option.toList_some, Tree.subtreesAll_singleton, Tree.subtrees]
      exact List.forall_mem_cons.2 ⟨rfl, hbody.atLeftmost⟩

theorem Grammar.Statements.atLeftmost {file : String} {ts : List Token} {body : List Tree}
    (h : Statements file ts body) : ∀ y ∈ Tree.subtreesAll body, y.AtLeftmost := by
  match h with
  | .nil => exact nofun
  | .cons hx h =>
      rw [Tree.subtreesAll_append]
      exact List.forall_mem_append.2 ⟨hx.atLeftmost, h.atLeftmost⟩

end

/-! ## Tokens and the line index -/

theorem Tokens.ofSource_laid (source : String) :
    Laid .start source.toList (ofSource source).items (ofSource source).finish := by
  obtain ⟨ts, hitems, hlaid, -⟩ := scan_laid [] .start source.toList
  obtain rfl : (ofSource source).items = ts := hitems
  exact hlaid

/-- Each token starts at the place that counting through the text in front of it comes to. -/
theorem Laid.starts {source : String} {p : Position} {text : List Char} {ts : List Token}
    {e : Token} (h : Laid p text ts e) : ∀ before, p = Position.start.after before →
      source.toList = before ++ text → ∀ t ∈ ts ++ [e], ∃ before after,
        source.toList = before ++ after ∧ t.start = Position.start.after before := by
  induction h with
  | @finish p gap _ =>
      intro before hp hsource t ht
      rw [List.nil_append, List.mem_singleton] at ht
      subst ht
      exact ⟨before ++ gap, [], by rw [hsource, List.append_nil],
        by rw [hp, Position.after_append]⟩
  | @token p gap text rest kind ts e _ _ _ _ _ _ ih =>
      intro before hp hsource
      refine List.forall_mem_cons.2
        ⟨⟨before ++ gap, text ++ rest, ?_, ?_⟩, ih (before ++ gap ++ text) ?_ ?_⟩
      · rw [hsource, List.append_assoc]
      · rw [hp, Position.after_append]
      · rw [hp, Position.after_append, Position.after_append]
      · rw [hsource, List.append_assoc, List.append_assoc]

/-- A token is located where the line index finds its offset. -/
theorem Tokens.location_eq {source : String} (file : String) {t : Token}
    (ht : t ∈ (ofSource source).toList) :
    Location.ofPosition file t.start = .ofOffset file source t.start.offset := by
  obtain ⟨before, after, hsource, hstart⟩ := (ofSource_laid source).starts [] rfl rfl t ht
  have hoffset : t.start.offset = byteCount before := by rw [hstart, Position.after_start]
  rw [Location.ofOffset, hoffset, LineIndex.locate_boundary hsource, hstart]

/-- The tokens of a source are located later and later. -/
theorem Tokens.locations_ordered (file source : String) :
    (ofSource source).items.Pairwise fun t u =>
      (Location.ofOffset file source t.start.offset).Before
        (.ofOffset file source u.start.offset) := by
  have hlaid := ofSource_laid source
  have hs : GoesOn source Position.start.offset source.toList := ⟨[], rfl, rfl⟩
  have hvalid : ∀ t ∈ (ofSource source).items,
      String.Pos.Raw.IsValid source ⟨t.start.offset⟩ := by
    intro t ht
    obtain ⟨rest, hx, -⟩ := hlaid.excerpts hs t (List.mem_append_left _ ht)
    exact hx.isValid.1
  have hordered := (List.pairwise_append.1 hlaid.ordered.2).1
  refine hordered.imp_of_mem ?_
  intro t u ht hu hle
  have hlt := (hlaid.nonempty t ht).2
  exact Location.before_ofOffset (hvalid t ht) (hvalid u hu) (by omega)

/-! ## Programs -/

/-- The node starts with the token, and is located where the line index of the source finds the
offset of the token. -/
structure Tree.LocatedAt (file source : String) (x : Tree) (t : Token) : Prop where
  head : x.HeadedBy t.kind
  location : x.location = .ofOffset file source t.start.offset

/-- The nodes of statements that are read from a source are located at the tokens that they start
with. -/
theorem Grammar.Statements.located {file source : String} {body : List Tree}
    (h : Statements file (Tokens.ofSource source).items body) :
    List.Forall₂ (Tree.LocatedAt file source) (Tree.headedAll body)
      (Token.heads false (Tokens.ofSource source).items) := by
  obtain ⟨hs, hts, hxs⟩ := h.heads
  obtain rfl : Token.heads false (Tokens.ofSource source).items = hs := by
    simpa [Token.heads] using hts []
  have hmem : ∀ t ∈ Token.heads false (Tokens.ofSource source).items,
      t ∈ (Tokens.ofSource source).toList :=
    fun t ht => List.mem_append_left _ ((Token.heads_sublist _ _).subset ht)
  have hboth := (List.forall₂_and_left _ _).2 ⟨hmem, hxs.flip⟩
  refine (hboth.imp ?_).flip
  rintro t x ⟨ht, hhead, hlocation⟩
  exact ⟨hhead, hlocation.trans (Tokens.location_eq file ht)⟩

/-- Nodes that are located at tokens of a source in order are located later and later. -/
theorem Tree.locations_ordered {file source : String} {xs : List Tree} {ts : List Token}
    (h : List.Forall₂ (Tree.LocatedAt file source) xs ts)
    (hts : ts.Sublist (Tokens.ofSource source).items) :
    xs.Pairwise fun x y => x.location.Before y.location := by
  have hmap : xs.map Tree.location =
      ts.map fun t => Location.ofOffset file source t.start.offset := by
    induction h with
    | nil => rfl
    | cons hx _ ih =>
        rw [List.map_cons, List.map_cons, hx.location, ih ((List.sublist_cons_self _ _).trans hts)]
  have hordered := (Tokens.locations_ordered file source).sublist hts
  rw [← List.pairwise_map (f := fun t : Token => Location.ofOffset file source t.start.offset),
    ← hmap] at hordered
  exact List.pairwise_map.1 hordered

/-- The nodes of a program are located where they stand in the source. -/
structure Program.Located (file source : String) (p : Program) : Prop where
  /-- In pre-order the nodes without the outermost block and the operations start with the tokens
  that nodes start with, one for one in the order of the source. -/
  heads : List.Forall₂ (Tree.LocatedAt file source)
    ((Tree.subtreesAll p.body).filter (!·.isOperation))
    (Token.heads false (Tokens.ofSource source).items)
  /-- An operation is located at its leftmost operand. -/
  operations : ∀ x ∈ Tree.subtreesAll p.body, x.isOperation = true →
    x.location = x.leftmost.location
  /-- From one of the other nodes to those behind it the location is later. -/
  ordered : ((Tree.subtreesAll p.body).filter (!·.isOperation)).Pairwise fun x y =>
    x.location.Before y.location

/-- The nodes of a program that is read from a source are located where they stand in it. -/
theorem Program.parse_located {file source : String} {p : Program}
    (h : parse file source = .ok p) : p.Located file source := by
  have hs := exists_parse_iff.1 ⟨p, h, rfl⟩
  have hlocated := hs.located
  exact ⟨hlocated, fun x hx _ => hs.atLeftmost x hx,
    Tree.locations_ordered hlocated (Token.heads_sublist _ _)⟩

-- the product and the sum in parentheses are both where `a` is
theorem Program.parse_located_product : ∃ p,
    parse "main" "var a = 1\n\x7b ; var b = /* é */ (a + 2) * a \x7d" = .ok p ∧
      (Tree.subtreesAll p.body).map (fun x => (x.location.line, x.location.column)) =
        [(1, 1), (1, 9), (2, 1), (2, 5), (2, 22), (2, 22), (2, 22), (2, 26), (2, 31)] ∧
      p.Located "main" "var a = 1\n\x7b ; var b = /* é */ (a + 2) * a \x7d" := by
  obtain ⟨p, hp, hlocations⟩ := exists_parse_of_map (show
    (parse "main" "var a = 1\n\x7b ; var b = /* é */ (a + 2) * a \x7d").toOption.map
      (fun p => (Tree.subtreesAll p.body).map fun x => (x.location.line, x.location.column)) =
        some [(1, 1), (1, 9), (2, 1), (2, 5), (2, 22), (2, 22), (2, 22), (2, 26), (2, 31)] by
    decide +kernel)
  exact ⟨p, hp, hlocations, parse_located hp⟩

end BlockScript
