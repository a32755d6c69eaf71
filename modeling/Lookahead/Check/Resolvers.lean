import Lookahead.Analysis.First

/-!
# Resolvers

A resolver decides where lookahead does not. It belongs at the start of an alternative or of the
content of a group, in front of something that other choices can start with too, and before the
choice that would otherwise be taken.
-/

namespace Lookahead.Table

/-- Reports a resolver that no conflict calls for. -/
def reportUseless (n : Node) (conflict : Bool) : Noted Unit :=
  if conflict then return else Noted.warning .resolverWithoutConflict (some n.location)

/-- A resolver in front of an alternative, given what other alternatives expect without a resolver
of their own (`all`), and what those before this one do. -/
def checkAlternative (t : Table) (a : SymbolId) (all before : IndexSet) (sub : NodeId) :
    Noted IndexSet := do
  let n := t.node sub
  match n.kind with
  | .resolver =>
    let s ← t.expected n.next a
    if s.overlaps before then Noted.warning .resolverNeverEvaluated (some n.location)
    reportUseless n (s.overlaps all)
    return before
  | _ =>
    let s ← t.expected (some sub) a
    return before.union s

/-- A resolver in front of the content of a group that is followed by `next`. -/
def checkContent (t : Table) (a : SymbolId) (sub : NodeId) (next : Option NodeId) : Noted Unit := do
  let n := t.node sub
  match n.kind with
  | .resolver =>
    let r ← t.first n.next
    let s ← t.expected next a
    reportUseless n (r.overlaps s)
  | _ => return

/-- The resolvers of the group at `p` in the production of `a`; `atChoice` tells whether a resolver
may stand at `p` itself. -/
def resolversFrom (t : Table) (a : SymbolId) :
    (fuel : Nat) → (atChoice : Bool) → Option NodeId → Noted Unit
  | 0, _, _ => return
  | _, _, none => return
  | fuel + 1, atChoice, some i => do
    let n := t.node i
    match n.kind with
    | .alt _ _ =>
      let subs := (t.graph.alternatives i).map (·.1)
      let all ← subs.foldlM (fun (r : IndexSet) sub => do
        let s ← t.expectedUnresolved (some sub) a
        return r.union s) (.empty t.terminalCount)
      let _ ← subs.foldlM (fun (before : IndexSet) sub => do
        let before ← t.checkAlternative a all before sub
        t.resolversFrom a fuel true (some sub)
        return before) (.empty t.terminalCount)
    | .iter sub | .opt sub =>
      t.checkContent a sub n.next
      t.resolversFrom a fuel true (some sub)
    | .resolver =>
      if !atChoice then Noted.error .resolverWithoutAlternative (some n.location)
    | _ => pure ()
    if n.up then return else t.resolversFrom a fuel false n.next

def checkResolvers (t : Table) : Noted Unit :=
  t.nonterminals.toList.forM fun a =>
    t.resolversFrom a (t.graph.size + 1) false (t.symbol a).root

end Lookahead.Table
