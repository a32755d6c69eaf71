import Lookahead.Proofs.Access

/-!
# Walks without fuel

The walks through a graph and the loops over tables, as their recursion has them: nothing bounds how
deep a call may go or how often a loop comes around. Each of them is the least solution of its
equation, so it has a value exactly where the recursion comes to an end, and `none` stands for a
recursion that does not. Checked work also has no value where it comes upon an index, a node or a
symbol that is not there. Where a function calls itself, the call is written as that of an operator
(`unop%`, `binop%`), which keeps the place of the call in the source out of the definition.
-/

namespace Lookahead

namespace Graph

/-! ### Building graphs -/

variable (bounds : Bounds)

variable (target : Option NodeId) in
/-- Gives every exit on the list from `p` the successor `target`. -/
def redirect? (g : Graph) : Option NodeId → Option Graph
  | none => some g
  | some i => do
    let n ← g.node? bounds i
    binop% redirect? (← g.setNext? bounds i target) n.next
partial_fixpoint

/-- Where following `step` ends. -/
def follow? (step : NodeId → Option (Option NodeId)) (p : NodeId) : Option NodeId := do
  match ← step p with
  | none => some p
  | some q => binop% follow? step q
partial_fixpoint

def firstAlternative? (g : Graph) (p : Piece) : Option (Graph × Piece) := do
  let (g, i) := g.add (.alt p.entry none) (← g.node? bounds p.entry).line
  let g ← g.setUp? bounds p.exits
  return (← g.setNext? bounds i (some p.exits), ⟨i, i⟩)

def alternative? (g : Graph) (p q : Piece) : Option (Graph × Piece) := do
  let (g, i) := g.add (.alt q.entry none) (← g.node? bounds q.entry).line
  let g ← g.setUp? bounds i
  let g ← g.setUp? bounds q.exits
  let last ← follow? (fun j => do return (← g.node? bounds j).kind.down?) p.entry
  let g ← match (← g.node? bounds last).kind with
    | .alt sub _ => g.setKind? bounds last (.alt sub (some i))
    | _ => some g
  let exit ← follow? (fun j => do return (← g.node? bounds j).next) p.exits
  let g ← g.setNext? bounds exit (some i)
  return (← g.setNext? bounds i (some q.exits), p)

def sequence? (g : Graph) (p q : Piece) : Option (Graph × Piece) := do
  return (← redirect? bounds (some q.entry) g (some p.exits), ⟨p.entry, q.exits⟩)

def iteration? (g : Graph) (p : Piece) : Option (Graph × Piece) := do
  let (g, i) := g.add (.iter p.entry) (← g.node? bounds p.entry).line
  let g ← g.setUp? bounds p.exits
  return (← redirect? bounds (some i) g (some p.exits), ⟨i, i⟩)

def option? (g : Graph) (p : Piece) : Option (Graph × Piece) := do
  let (g, i) := g.add (.opt p.entry) (← g.node? bounds p.entry).line
  let g ← g.setUp? bounds p.exits
  return (← g.setNext? bounds i (some p.exits), ⟨i, i⟩)

def finish? (g : Graph) (p : Piece) : Option Graph := redirect? bounds none g (some p.exits)

/-- One node for each character, in order, behind `p`. -/
def charsAfter? (g : Graph) (p : Piece) (line : Nat) : List Char → Option (Graph × Piece)
  | [] => some (g, p)
  | c :: cs => do
    let (g, i) := g.add (.char c.toNat .normal) line
    (← g.setNext? bounds p.exits (some i)).charsAfter? ⟨p.entry, i⟩ line cs

def chars? (g : Graph) (line : Nat) : List Char → Option (Graph × Piece)
  | [] => some (g.single .empty line)
  | c :: cs =>
    let (g, p) := g.single (.char c.toNat .normal) line
    g.charsAfter? bounds p line cs

/-- Marks the characters of the group that starts at `p` as context. -/
def markContext? (g : Graph) : Option NodeId → Option Graph
  | none => some g
  | some i => do
    let n ← g.node? bounds i
    let g ← (match n.kind with
      | .alt sub down => do binop% markContext? (← binop% markContext? g (some sub)) down
      | .iter sub | .opt sub => binop% markContext? g (some sub)
      | k => g.setKind? bounds i k.inContext)
    if n.up then return g else binop% markContext? g n.next
partial_fixpoint

/-! ### Deletability -/

section

variable (g : Graph) (deletable : SymbolId → Option Bool)

def groupDeletable? (p : Option NodeId) : Option Bool :=
  match p with
  | none => some true
  | some i => do
    let n ← g.node? bounds i
    let here ← (match n.kind with
      | .nonterminal s => deletable s
      | .alt sub down => do
        if ← unop% groupDeletable? (some sub) then return true
        else if down.isSome then unop% groupDeletable? down else return false
      | .iter _ | .opt _ | .action | .empty | .resolver | .sync _ => some true
      | _ => some false)
    if here then (if n.up then some true else unop% groupDeletable? n.next) else some false
partial_fixpoint

def nodeDeletable? (i : NodeId) : Option Bool := do
  match (← g.node? bounds i).kind with
  | .nonterminal s => deletable s
  | .alt sub down => do
    if ← g.groupDeletable? bounds deletable (some sub) then return true
    else if down.isSome then g.groupDeletable? bounds deletable down else return false
  | .iter _ | .opt _ | .action | .empty | .resolver | .sync _ => some true
  | _ => some false

def restDeletable? (p : Option NodeId) : Option Bool :=
  match p with
  | none => some true
  | some i => do
    if ← g.nodeDeletable? bounds deletable i then
      unop% restDeletable? (← g.node? bounds i).next
    else some false
partial_fixpoint

/-- The content of each alternative, starting with the one at `p`, and the alternative after it. -/
def alternatives? (p : Option NodeId) : Option (List (NodeId × Option NodeId)) :=
  match p with
  | none => some []
  | some i => do
    match (← g.node? bounds i).kind with
    | .alt sub down => do return (sub, down) :: (← unop% alternatives? down)
    | _ => some []
partial_fixpoint

end

end Graph

namespace Table

variable (bounds : Bounds) (t : Table)

def isDeletable? (a : SymbolId) : Option Bool := do return (← t.symbol? bounds a).deletable

def restDeletable? (p : Option NodeId) : Option Bool :=
  t.graph.restDeletable? bounds (t.isDeletable? bounds) p

def groupDeletable? (p : Option NodeId) : Option Bool :=
  t.graph.groupDeletable? bounds (t.isDeletable? bounds) p

def nodeDeletable? (i : NodeId) : Option Bool :=
  t.graph.nodeDeletable? bounds (t.isDeletable? bounds) i

/-- What the listings look up: the symbols of the lists, of the literals and of the nodes, and the
classes of the nodes. -/
def lookUps? : Option Unit := do
  let _ ← t.symbols? bounds (t.terminals ++ t.pragmas ++ t.nonterminals).toList
  let _ ← t.symbols? bounds (t.literals.toList.map (·.2))
  t.graph.nodes.toList.forM fun n => match n.kind with
    | .charClass c _ => do let _ ← t.charClass? bounds c
    | k => do let _ ← t.symbols? bounds k.symbol?.toList

/-! ### Deletable nonterminals -/

def markDeletable? (t : Table) (a : SymbolId) : Option Table := do
  let s ← t.symbol? bounds a
  if !s.deletable && s.root.isSome then
    if ← t.restDeletable? bounds s.root then
      return ← t.modifySymbol? bounds a fun s => { s with deletable := true }
  return t

/-- Rounds over all nonterminals, until a round changes nothing. -/
def closeDeletable? (t : Table) : Option Table := do
  let u ← t.nonterminals.toList.foldlM (markDeletable? bounds) t
  if u.deletableCount = t.deletableCount then return u else (unop% closeDeletable? u :)
partial_fixpoint

/-! ### First sets -/

/-- The terminals found on the way from `p`, and the marks afterwards. -/
def firstFrom? (p : Option NodeId) (m : IndexSet) : Option (IndexSet × IndexSet) :=
  match p with
  | none => some (.empty t.terminalCount, m)
  | some i => do
    if ← m.get? bounds i then some (.empty t.terminalCount, m)
    else do
      let n ← t.graph.node? bounds i
      let none := IndexSet.empty t.terminalCount
      let m ← m.insert? bounds i
      let (s, m) ← (match n.kind with
        | .nonterminal a => do
          let a ← t.symbol? bounds a
          if a.firstReady then some (none.union a.first, m) else binop% firstFrom? a.root m
        | .terminal a | .weak a => do
          return (← none.insert? bounds (← t.symbol? bounds a).index, m)
        | .any set => some (none.union set, m)
        | .alt sub down => do
          let (s, m) ← binop% firstFrom? (some sub) m
          let (r, m) ← binop% firstFrom? down m
          return (s.union r, m)
        | .iter sub | .opt sub => binop% firstFrom? (some sub) m
        | _ => some (none, m))
      if ← t.nodeDeletable? bounds i then
        let (r, m) ← binop% firstFrom? n.next m
        return (s.union r, m)
      else return (s, m)
partial_fixpoint

def first? (p : Option NodeId) : Work IndexSet := do
  let (s, _) ← t.firstFrom? bounds p (.empty t.graph.size)
  let _ ← t.symbols? bounds t.terminals.toList
  Noted.run ⟨s, [.listing .firstSteps fun _ => Listing.firstStep t p s]⟩

def resetFirst? : Option Table :=
  t.nonterminals.toList.foldlM (fun u a => u.modifySymbol? bounds a fun s =>
    { s with first := .empty t.terminalCount, firstReady := false }) t

def setFirst? (t : Table) (a : SymbolId) : Work Table := do
  let s ← t.first? bounds (← t.symbol? bounds a).root
  (t.modifySymbol? bounds a fun b => { b with first := s, firstReady := true } : Option Table)

def expected? (p : Option NodeId) (a : SymbolId) : Work IndexSet := do
  let s ← t.first? bounds p
  if ← t.restDeletable? bounds p then return s.union (← t.symbol? bounds a).follow else return s

def expectedUnresolved? (p : Option NodeId) (a : SymbolId) : Work IndexSet :=
  match p with
  | none => t.expected? bounds none a
  | some i => do
    match (← t.graph.node? bounds i).kind with
    | .resolver => return .empty t.terminalCount
    | _ => t.expected? bounds (some i) a

/-! ### Wildcards -/

/-- The wildcard that the group at `p` can reach without matching anything before. -/
def leadingWildcard? (p : Option NodeId) : Option (Option NodeId) :=
  match p with
  | none => some none
  | some i => do
    let n ← t.graph.node? bounds i
    let a ← (match n.kind with
      | .any _ => some (some i)
      | .alt sub down => do
        match ← (unop% leadingWildcard? (some sub) :) with
        | some a => return some a
        | none => (unop% leadingWildcard? down :)
      | .opt sub | .iter sub => (unop% leadingWildcard? (some sub) :)
      | _ => some none)
    if a.isSome then some a
    else if ← t.nodeDeletable? bounds i then
      (if n.up then some a else (unop% leadingWildcard? n.next :))
    else some a
partial_fixpoint

def restrict? (a : NodeId) (s : IndexSet) : Option Table := do
  match (← t.graph.node? bounds a).kind with
  | .any set => return { t with graph := ← t.graph.setKind? bounds a (.any (set.diff s)) }
  | _ => return t

/-- Takes the terminals that can start at `q` away from the wildcard that `p` leads to. -/
def restrictLeading? (p q : Option NodeId) : Work Table := do
  match ← t.leadingWildcard? bounds p with
  | some a => do
    let s ← t.first? bounds q
    (t.restrict? bounds a s : Option Table)
  | none => return t

def content? (i : NodeId) : Option (Option NodeId) := do
  match (← t.graph.node? bounds i).kind with
  | .nonterminal a => return (← t.symbol? bounds a).root
  | k => return k.sub?

def restrictAlternative? (others : IndexSet) (sub : NodeId) (down : Option NodeId) :
    Work (Table × IndexSet) := do
  match ← t.leadingWildcard? bounds (some sub) with
  | some a => do
    let s ← t.first? bounds down
    return (← t.restrict? bounds a (s.union others), others)
  | none => do
    let s ← t.first? bounds (some sub)
    return (t, others.union s)

/-- Cuts down the wildcards of the group at `p`, inner groups first. -/
def restrictFrom? (t : Table) (p : Option NodeId) : Work Table :=
  match p with
  | none => return t
  | some i => do
    let n ← t.graph.node? bounds i
    let t ← match n.kind with
      | .opt sub | .iter sub => do
        let t ← binop% restrictFrom? t (some sub)
        t.restrictLeading? bounds (some sub) n.next
      | .alt _ _ => do
        let as ← t.graph.alternatives? bounds (some i)
        let r ← as.foldlM (fun (r : Table × IndexSet) a => do
          let t ← binop% restrictFrom? r.1 (some a.1)
          t.restrictAlternative? bounds r.2 a.1 a.2) (t, .empty t.terminalCount)
        pure r.1
      | _ => pure t
    let t ←
      if ← t.nodeDeletable? bounds i then
        t.restrictLeading? bounds n.next (← t.content? bounds i)
      else pure t
    if n.up then return t else binop% restrictFrom? t n.next
partial_fixpoint

/-! ### Follow sets -/

/-- Changes a symbol in a way that needs something to be there. -/
def updateSymbol? (t : Table) (a : SymbolId) (f : Symbol → Option Symbol) : Option Table := do
  let s ← f (← t.symbol? bounds a)
  t.modifySymbol? bounds a fun _ => s

variable (a : SymbolId) in
/-- Adds what follows the nonterminals in the production of `a`, from `p` on, and marks the
nodes. -/
def followFrom? (r : Table × IndexSet) (p : Option NodeId) : Work (Table × IndexSet) :=
  match p with
  | none => return r
  | some i => do
    if ← r.2.get? bounds i then return r
    else do
      let t := r.1
      let n ← t.graph.node? bounds i
      let m ← r.2.insert? bounds i
      let r ← match n.kind with
        | .nonterminal b => do
          let s ← t.first? bounds n.next
          let t ← t.modifySymbol? bounds b fun b => { b with follow := b.follow.union s }
          if ← t.restDeletable? bounds n.next then
            let k := (← t.symbol? bounds a).index
            let t ← t.updateSymbol? bounds b fun b => do
              return { b with followSources := ← b.followSources.insert? bounds k }
            pure (t, m)
          else pure (t, m)
        | .opt sub | .iter sub => binop% followFrom? (t, m) (some sub)
        | .alt sub down => do
          let r ← binop% followFrom? (t, m) (some sub)
          binop% followFrom? r down
        | _ => pure (t, m)
      binop% followFrom? r n.next
partial_fixpoint

variable (root : SymbolId) in
/-- Adds to the follow set of `a` those of its sources, and theirs, past the nonterminals that are
already marked. -/
def completeFrom? (r : Table × IndexSet) (a : SymbolId) : Option (Table × IndexSet) := do
  let k := (← r.1.symbol? bounds a).index
  if ← r.2.get? bounds k then some r
  else do
    let m ← r.2.insert? bounds k
    r.1.nonterminals.toList.foldlM (fun (r : Table × IndexSet) b => do
      let j := (← r.1.symbol? bounds b).index
      if ← (← r.1.symbol? bounds a).followSources.get? bounds j then
        let (t, m) ← binop% completeFrom? r b
        let s := (← t.symbol? bounds b).follow
        let t ← t.updateSymbol? bounds a fun a' => do
          return { a' with
            follow := a'.follow.union s
            followSources :=
              ← if a = root then a'.followSources.erase? bounds j else a'.followSources }
        return (t, m)
      else return r) (r.1, m)
partial_fixpoint

def resetFollow? : Option Table := do
  let u ← t.nonterminals.toList.foldlM (fun u a => u.modifySymbol? bounds a fun s =>
    { s with
      follow := .empty t.terminalCount
      followSources := .empty t.nonterminalCount }) t
  match t.start with
  | some a => do
    let k := (← t.symbol? bounds t.eof).index
    u.updateSymbol? bounds a fun s => do return { s with follow := ← s.follow.insert? bounds k }
  | none => return u

/-! ### Synchronisation sets -/

variable (a : SymbolId) in
/-- Fills the sets in the production of `a`, from `p` on, and marks the nodes. -/
def syncFrom? (r : Table × IndexSet) (p : Option NodeId) : Work (Table × IndexSet) :=
  match p with
  | none => return r
  | some i => do
    if ← r.2.get? bounds i then return r
    else do
      let t := r.1
      let n ← t.graph.node? bounds i
      let m ← r.2.insert? bounds i
      let r ← match n.kind with
        | .sync _ => do
          let s ← t.expected? bounds n.next a
          let s ← s.insert? bounds (← t.symbol? bounds t.eof).index
          let g ← t.graph.setKind? bounds i (.sync s)
          pure ({ t with syncs := t.syncs.union s, graph := g }, m)
        | .alt sub down => do
          let r ← binop% syncFrom? (t, m) (some sub)
          binop% syncFrom? r down
        | .opt sub | .iter sub => binop% syncFrom? (t, m) (some sub)
        | _ => pure (t, m)
      binop% syncFrom? r n.next
partial_fixpoint

/-! ### Checks -/

/-- Reports the nonterminals that fail a test; true if none does. -/
def reportUnless? (ok : Symbol → Option Bool) (cause : String → Cause) : Work Bool := do
  let symbols ← t.symbols? bounds t.nonterminals.toList
  let bad ← (symbols.filterM fun s => do return !(← ok s) : Option (List Symbol))
  Noted.run ⟨bad.isEmpty, bad.map fun s => .report (.error (cause s.name))⟩

/-- Marks the nonterminals that the group at `p` mentions, and all that their productions do. -/
def reachFrom? (p : Option NodeId) (m : IndexSet) : Option IndexSet :=
  match p with
  | none => some m
  | some i => do
    let n ← t.graph.node? bounds i
    let m ← (match n.kind with
      | .nonterminal a => do
        let a ← t.symbol? bounds a
        if ← m.get? bounds a.index then some m
        else binop% reachFrom? a.root (← m.insert? bounds a.index)
      | .alt sub down => do binop% reachFrom? down (← binop% reachFrom? (some sub) m)
      | .iter sub | .opt sub => binop% reachFrom? (some sub) m
      | _ => some m)
    if n.up then some m else binop% reachFrom? n.next m
partial_fixpoint

/-- The nonterminals that the rest of the production from `p` on can be reduced to. -/
def singlesFrom? (p : Option NodeId) : Option (List SymbolId) :=
  match p with
  | none => some []
  | some i => do
    let n ← t.graph.node? bounds i
    let alone ← (if n.up then some true else t.restDeletable? bounds n.next)
    let here ←
      (if alone then
        match n.kind with
        | .nonterminal a => some [a]
        | .alt sub down => do
          return (← unop% singlesFrom? (some sub)) ++ (← unop% singlesFrom? down)
        | .iter sub | .opt sub => unop% singlesFrom? (some sub)
        | _ => some []
      else some [])
    if n.up then some here
    else if ← t.nodeDeletable? bounds i then return here ++ (← unop% singlesFrom? n.next)
    else some here
partial_fixpoint

/-- Drops steps that are not linked, until all are. -/
def pruneSteps? (steps : List Step) : Option (List Step) :=
  let rest := linked steps
  if rest.length = steps.length then some rest else (unop% pruneSteps? rest :)
partial_fixpoint

/-- Whether the group at `p` derives terminals alone, given the nonterminals that do. -/
def terminatesFrom? (m : IndexSet) (p : Option NodeId) : Option Bool :=
  match p with
  | none => some true
  | some i => do
    let n ← t.graph.node? bounds i
    let here ← (match n.kind with
      | .nonterminal a => do m.get? bounds (← t.symbol? bounds a).index
      | .alt sub down => do
        if ← binop% terminatesFrom? m (some sub) then return true
        else if down.isSome then binop% terminatesFrom? m down else return false
      | _ => some true)
    if here then (if n.up then some true else binop% terminatesFrom? m n.next) else some false
partial_fixpoint

def markTerminating? (m : IndexSet) (s : Symbol) : Option IndexSet := do
  if ← m.get? bounds s.index then return m
  if ← t.terminatesFrom? bounds m s.root then m.insert? bounds s.index else return m

/-- Rounds over all nonterminals, until a round changes nothing. -/
def closeTerminating? (m : IndexSet) : Option IndexSet := do
  let symbols ← t.symbols? bounds t.nonterminals.toList
  let r ← symbols.foldlM (t.markTerminating? bounds) m
  if r = m then return r else (unop% closeTerminating? r :)
partial_fixpoint

/-- Reports the terminals that two sets share. -/
def reportOverlap? (a : SymbolId) (k : Conflict) (r s : IndexSet) : Work Unit := do
  let _ ← t.symbol? bounds a
  let shared ← (t.terminals.toList.filterM fun b => do
    let n := (← t.symbol? bounds b).index
    if ← r.get? bounds n then s.get? bounds n else return false : Option (List SymbolId))
  Noted.run ⟨(), shared.map fun b => t.conflict a (some b) k⟩

/-- Reports a conflict that no terminal brings about. -/
def reportConflict? (a : SymbolId) (k : Conflict) : Work Unit := do
  let _ ← t.symbol? bounds a
  (Noted.emit (t.conflict a none k)).run

variable (a : SymbolId) in
/-- The conflicts of the group at `p` in the production of `a`. -/
def conflictsFrom? (p : Option NodeId) : Work Unit :=
  match p with
  | none => return
  | some i => do
    let n ← t.graph.node? bounds i
    match n.kind with
    | .alt _ _ =>
      let as ← t.graph.alternatives? bounds (some i)
      let _ ← as.foldlM (fun (before : IndexSet) b => do
        let s ← t.expectedUnresolved? bounds (some b.1) a
        t.reportOverlap? bounds a .severalAlternatives before s
        unop% conflictsFrom? (some b.1)
        return before.union s) (.empty t.terminalCount)
    | .opt sub | .iter sub =>
      if ← t.groupDeletable? bounds (some sub) then
        t.reportConflict? bounds a .deletableContent
      else
        let r ← t.expectedUnresolved? bounds (some sub) a
        let s ← t.expected? bounds n.next a
        t.reportOverlap? bounds a .deletableAndSuccessor r s
      unop% conflictsFrom? (some sub)
    | .any set => if set.isEmpty then t.reportConflict? bounds a .emptyWildcard
    | _ => pure ()
    if n.up then return else unop% conflictsFrom? n.next
partial_fixpoint

def checkAlternative? (a : SymbolId) (all before : IndexSet) (sub : NodeId) : Work IndexSet := do
  let n ← t.graph.node? bounds sub
  match n.kind with
  | .resolver =>
    let s ← t.expected? bounds n.next a
    if s.overlaps before then (Noted.warning .resolverNeverEvaluated (some n.location)).run
    (reportUseless n (s.overlaps all)).run
    return before
  | _ =>
    let s ← t.expected? bounds (some sub) a
    return before.union s

def checkContent? (a : SymbolId) (sub : NodeId) (next : Option NodeId) : Work Unit := do
  let n ← t.graph.node? bounds sub
  match n.kind with
  | .resolver =>
    let r ← t.first? bounds n.next
    let s ← t.expected? bounds next a
    (reportUseless n (r.overlaps s)).run
  | _ => return

variable (a : SymbolId) in
/-- The resolvers of the group at `p` in the production of `a`. -/
def resolversFrom? (atChoice : Bool) (p : Option NodeId) : Work Unit :=
  match p with
  | none => return
  | some i => do
    let n ← t.graph.node? bounds i
    match n.kind with
    | .alt _ _ =>
      let as ← t.graph.alternatives? bounds (some i)
      let subs := as.map (·.1)
      let all ← subs.foldlM (fun (r : IndexSet) sub => do
        let s ← t.expectedUnresolved? bounds (some sub) a
        return r.union s) (.empty t.terminalCount)
      let _ ← subs.foldlM (fun (before : IndexSet) sub => do
        let before ← t.checkAlternative? bounds a all before sub
        binop% resolversFrom? true (some sub)
        return before) (.empty t.terminalCount)
    | .iter sub | .opt sub =>
      t.checkContent? bounds a sub n.next
      binop% resolversFrom? true (some sub)
    | .resolver =>
      if !atChoice then (Noted.error .resolverWithoutAlternative (some n.location)).run
    | _ => pure ()
    if n.up then return else binop% resolversFrom? false n.next
partial_fixpoint

/-! ### The analysis -/

def computeDeletable? : Work Table := do
  let u ← t.closeDeletable? bounds
  let symbols ← u.symbols? bounds u.nonterminals.toList
  Noted.run ⟨u, (symbols.filter (·.deletable)).map fun s => .report (.note (.deletable s.name))⟩

def computeFirst? : Work Table := do
  t.nonterminals.toList.foldlM (setFirst? bounds) (← t.resetFirst? bounds)

def restrictProduction? (t : Table) (a : SymbolId) : Work Table := do
  restrictFrom? bounds t (← t.symbol? bounds a).root

def computeWildcards? : Work Table := t.nonterminals.toList.foldlM (restrictProduction? bounds) t

def followProduction? (t : Table) (a : SymbolId) : Work Table := do
  let r ← followFrom? bounds a (t, .empty t.graph.size) (← t.symbol? bounds a).root
  return r.1

def completeFollow? (t : Table) (a : SymbolId) : Option Table := do
  let r ← completeFrom? bounds a (t, .empty t.nonterminalCount) a
  return r.1

def computeFollow? : Work Table := do
  let t ← t.nonterminals.toList.foldlM (followProduction? bounds) (← t.resetFollow? bounds)
  (t.nonterminals.toList.foldlM (completeFollow? bounds) t : Option Table)

def syncProduction? (t : Table) (a : SymbolId) : Work Table := do
  let r ← syncFrom? bounds a (t, .empty t.graph.size) (← t.symbol? bounds a).root
  return r.1

def computeSyncs? : Work Table := do
  let syncs ← (IndexSet.empty t.terminalCount).insert? bounds (← t.symbol? bounds t.eof).index
  t.nonterminals.toList.foldlM (syncProduction? bounds) { t with syncs := syncs }

def computeSets? : Work Table := do
  let t ← t.computeDeletable? bounds
  let t ← t.computeFirst? bounds
  let t ← t.computeWildcards? bounds
  let t ← t.computeFollow? bounds
  let t ← t.computeSyncs? bounds
  t.lookUps? bounds
  (list .sets fun _ => Listing.firstAndFollow t).run
  (list .wildcardsAndSyncs fun _ => Listing.wildcardsAndSyncs t).run
  return t

def checkComplete? : Work Bool :=
  t.reportUnless? bounds (fun s => some s.root.isSome) .noProduction

def reached? : Option IndexSet := do
  let m := IndexSet.empty t.nonterminalCount
  match t.start with
  | some a => do
    let a ← t.symbol? bounds a
    t.reachFrom? bounds a.root (← m.insert? bounds a.index)
  | none => some m

def checkReached? : Work Bool := do
  let m ← t.reached? bounds
  t.reportUnless? bounds (fun s => m.get? bounds s.index) .unreachable

def singleSteps? : Option (List Step) := do
  let singles ← t.nonterminals.toList.mapM fun a => do
    return (← t.singlesFrom? bounds (← t.symbol? bounds a).root).map fun b => (a, b)
  return singles.flatten.eraseDups

def checkNotCircular? : Work Bool := do
  let steps ← pruneSteps? (← t.singleSteps? bounds)
  let _ ← t.symbols? bounds (steps.map (·.1) ++ steps.map (·.2))
  Noted.run ⟨steps.isEmpty, steps.map fun s =>
    .report (.error (.circular (t.symbol s.1).name (t.symbol s.2).name))⟩

def checkTerminating? : Work Bool := do
  let m ← t.closeTerminating? bounds (.empty t.nonterminalCount)
  t.reportUnless? bounds (fun s => m.get? bounds s.index) .underivable

def checkStructure? : Work Bool := do
  if ← t.checkComplete? bounds then
    if ← t.checkReached? bounds then
      if ← t.checkNotCircular? bounds then
        return ← t.checkTerminating? bounds
  return false

def checkConflicts? : Work Unit :=
  t.nonterminals.toList.forM fun a => do t.conflictsFrom? bounds a (← t.symbol? bounds a).root

def checkResolvers? : Work Unit :=
  t.nonterminals.toList.forM fun a => do
    t.resolversFrom? bounds a false (← t.symbol? bounds a).root

def checkChoices? : Work Bool := fun es => do
  let ((), new) ← (do t.checkResolvers? bounds; t.checkConflicts? bounds : Work Unit).run []
  return (!new.any Event.isError, es ++ new)

def check? : Work Bool := do
  if ← t.checkStructure? bounds then t.checkChoices? bounds else return false

def analyze? (faulty : Bool) : Work (Table × Bool) := do
  let r ← if faulty then pure (t, false) else do
    let t ← t.computeSets? bounds
    t.lookUps? bounds
    (list .crossReference fun _ => Listing.crossReference t).run
    let ok ← t.check? bounds
    if ok then (list .statistics fun _ => Listing.statistics t).run
    pure (t, ok)
  r.1.lookUps? bounds
  (list .symbols fun cfg => Listing.symbols r.1 cfg).run
  return r

end Table

end Lookahead
