import Lookahead.Proofs.Lexemes

/-!
# Reading tokens, with counters

The reader counts the comments and the brackets that are open. The count of comments is kept from
one comment to the next, that of brackets starts afresh with each token. Reading with counters comes
to what reading comes to, and no counter is ever taken below zero (`Token.read?_eq`).
-/

namespace Lookahead.Token

/-- How many comments and how many brackets are open. -/
structure Counters where
  comments : Nat := 0
  brackets : Nat := 0

section

variable (bounds : Bounds)

/-- The length of a comment, as `blockCommentLength`. -/
def blockCommentLength? :
    Counters → (n passed : Nat) → List Char → Option (Except Nat Nat × Counters)
  | k, _, passed, [] => some (.error passed, k)
  | k, n, passed, '/' :: '*' :: cs =>
    blockCommentLength? { k with comments := k.comments + 1 } (n + 2) passed cs
  | k, n, passed, '*' :: '/' :: cs =>
    if k.comments = 1 then some (.ok (n + 2), { k with comments := 0 })
    else do
      let m ← bounds.sub k.comments 1
      blockCommentLength? { k with comments := m } (n + 2) passed cs
  | k, n, _, _ :: cs => blockCommentLength? k (n + 1) (n + 1) cs

/-- The length up to the bracket that closes the last open one, as `balancedLength`. -/
def balancedLength? (opening closing : Char) :
    Counters → List Char → Option (Option Nat × Counters)
  | k, [] => some (none, k)
  | k, c :: cs =>
    if c = closing then do
      let m ← bounds.sub k.brackets 1
      if m = 0 then return (some 1, { k with brackets := m })
      let (r, k) ← balancedLength? opening closing { k with brackets := m } cs
      return (r.map (· + 1), k)
    else if c = opening then do
      let (r, k) ← balancedLength? opening closing { k with brackets := k.brackets + 1 } cs
      return (r.map (· + 1), k)
    else do
      let (r, k) ← balancedLength? opening closing k cs
      return (r.map (· + 1), k)

/-- What a text starts with, as `scan`. -/
def scan? (k : Counters) (cs : List Char) : Option (Except Nat Lexeme × Counters) :=
  match cs with
  | '/' :: '*' :: ds => do
    let (r, k) ← blockCommentLength? bounds { k with comments := k.comments + 1 } 2 0 ds
    return (r.map fun n => (none, n), k)
  | '<' :: ds => do
    let (r, k) ← balancedLength? bounds '<' '>' { k with brackets := 1 } ds
    return (delimited .attributes 1 r, k)
  | cs =>
    match resolverHeadLength cs with
    | some n => do
      let (r, k) ← balancedLength? bounds '(' ')' { k with brackets := 1 } (cs.drop n)
      return (delimited .resolver n r, k)
    | none => some (scan cs, k)

def readFrom? : (fuel : Nat) → Counters → (p : Place) → List Char → Option Stream
  | 0, _, _, _ => some ⟨[], none⟩
  | _, _, _, [] => some ⟨[], none⟩
  | fuel + 1, k, p, cs => do
    let (r, k) ← scan? bounds k cs
    match r with
    | .error n => some ⟨[], some (p.advance (cs.take n))⟩
    | .ok (kind, n) =>
      let stop := p.advance (cs.take n)
      let s ← readFrom? fuel k stop (cs.drop n)
      match kind with
      | none => some s
      | some k => some { s with tokens := ⟨k, cs.take n, p, stop⟩ :: s.tokens }

def read? (source : String) : Option Stream :=
  let cs := source.toList
  readFrom? bounds (cs.length + 1) {} {} cs

end

variable {bounds : Bounds} {k : Counters} {cs : List Char}

/-- As long as a comment is open, one can be closed, and in the end none is open. -/
theorem blockCommentLength?_eq (bounds : Bounds) (n passed : Nat) (cs : List Char)
    (hk : k.comments ≠ 0) :
    ∃ l, blockCommentLength? bounds k n passed cs =
        some (blockCommentLength k.comments n passed cs, l) ∧ l.brackets = k.brackets ∧
      ((blockCommentLength k.comments n passed cs).toOption.isSome → l.comments = 0) := by
  induction k, n, passed, cs using blockCommentLength?.induct with
  | case1 => exact ⟨_, rfl, rfl, nofun⟩
  | case2 k n passed cs ih => exact ih (Nat.succ_ne_zero _)
  | case3 k n passed cs hone =>
    rw [blockCommentLength?, if_pos hone, blockCommentLength, if_pos hone.le]
    exact ⟨_, rfl, rfl, fun _ => rfl⟩
  | case4 k n passed cs hone ih =>
    rw [blockCommentLength?, if_neg hone, Bounds.sub_eq fun _ => Nat.one_le_iff_ne_zero.mpr hk,
      some_bind, blockCommentLength, if_neg (by omega)]
    exact ih _ (by simp; omega)
  | case5 k n passed c cs hopen hclose ih =>
    rw [blockCommentLength?, blockCommentLength]
    · exact ih hk
    · exact hopen
    · exact hclose
    · exact hopen
    · exact hclose

/-- As long as a bracket is open, one can be closed, and in the end none is open. -/
theorem balancedLength?_eq (bounds : Bounds) (opening closing : Char) (cs : List Char)
    (hk : k.brackets ≠ 0) :
    ∃ l, balancedLength? bounds opening closing k cs =
        some (balancedLength opening closing k.brackets cs, l) ∧ l.comments = k.comments ∧
      ((balancedLength opening closing k.brackets cs).isSome → l.brackets = 0) := by
  induction cs generalizing k with
  | nil => exact ⟨k, rfl, rfl, nofun⟩
  | cons c cs ih =>
    have hmore {j : Counters} (hc : j.comments = k.comments) (hj : j.brackets ≠ 0) :
        ∃ l, (do
            let (r, k) ← balancedLength? bounds opening closing j cs
            return (r.map (· + 1), k)) =
          some ((balancedLength opening closing j.brackets cs).map (· + 1), l) ∧
          l.comments = k.comments ∧
          (((balancedLength opening closing j.brackets cs).map (· + 1)).isSome →
            l.brackets = 0) := by
      obtain ⟨l, hl, hcl, hbl⟩ := ih hj
      exact ⟨l, by rw [hl]; rfl, hcl.trans hc, fun h => hbl (by simpa using h)⟩
    rw [balancedLength?, balancedLength]
    split
    · rw [Bounds.sub_eq fun _ => Nat.one_le_iff_ne_zero.mpr hk, some_bind]
      by_cases hone : k.brackets ≤ 1
      · rw [if_pos hone, if_pos (by omega)]
        exact ⟨_, rfl, rfl, fun _ => by simp; omega⟩
      · rw [if_neg hone, if_neg (by omega)]
        exact hmore (j := { k with brackets := k.brackets - 1 }) rfl (by simp; omega)
    · split
      · exact hmore (j := { k with brackets := k.brackets + 1 }) rfl (by simp)
      · exact hmore rfl hk

theorem scan_of_resolverHead {n : Nat} (h : resolverHeadLength cs = some n) :
    scan cs = delimited .resolver n (balancedLength '(' ')' 1 (cs.drop n)) := by
  obtain ⟨blanks, rest, rfl, rfl, -⟩ := exists_resolverHead h
  unfold scan
  simp only [h]
  rfl

/-- All counters are back at zero behind whatever is read. -/
theorem scan?_eq (bounds : Bounds) (cs : List Char) :
    ∃ l, scan? bounds {} cs = some (scan cs, l) ∧ ((scan cs).toOption.isSome → l = {}) := by
  have hdelimited (kind : Kind) (head : Nat) (o : Option Nat) :
      (delimited kind head o).toOption.isSome = o.isSome := by
    cases o <;> rfl
  unfold scan?
  split
  · rename_i ds
    obtain ⟨l, hl, hb, hc⟩ := blockCommentLength?_eq (k := { comments := 1 }) bounds 2 0 ds
      (by simp)
    rw [hl]
    refine ⟨l, rfl, fun h => ?_⟩
    rw [scan] at h
    have hcomments : l.comments = 0 := hc (by
      cases hlen : blockCommentLength 1 2 0 ds with
      | error e => simp [hlen, Except.map, Except.toOption] at h
      | ok m => rfl)
    cases l
    exact congrArg₂ Counters.mk hcomments hb
  · rename_i ds
    obtain ⟨l, hl, hc, hb⟩ := balancedLength?_eq (k := { brackets := 1 }) bounds '<' '>' ds
      (by simp)
    rw [hl]
    refine ⟨l, rfl, fun h => ?_⟩
    rw [scan, hdelimited] at h
    cases l
    exact congrArg₂ Counters.mk hc (hb h)
  · split
    · rename_i n hn
      obtain ⟨l, hl, hc, hb⟩ := balancedLength?_eq (k := { brackets := 1 }) bounds '(' ')'
        (cs.drop n) (by simp)
      rw [hl, scan_of_resolverHead hn]
      refine ⟨l, rfl, fun h => ?_⟩
      rw [hdelimited] at h
      cases l
      exact congrArg₂ Counters.mk hc (hb h)
    · exact ⟨{}, rfl, fun _ => rfl⟩

theorem readFrom?_eq {fuel : Nat} {p : Place} :
    readFrom? bounds fuel {} p cs = some (readFrom fuel p cs) := by
  induction fuel generalizing p cs with
  | zero => rfl
  | succ fuel ih =>
    cases cs with
    | nil => rfl
    | cons c cs =>
      obtain ⟨l, hl, hc⟩ := scan?_eq bounds (c :: cs)
      rw [readFrom?, hl, some_bind, readFrom]
      · cases hscan : scan (c :: cs) with
        | error n => rfl
        | ok r =>
          obtain ⟨kind, n⟩ := r
          obtain rfl := hc (by rw [hscan]; rfl)
          dsimp only
          rw [ih, some_bind]
          cases kind <;> rfl
      all_goals simp

/-- The counters do not change what is read, and they never go below zero. -/
theorem read?_eq (source : String) : read? bounds source = some (read source) :=
  readFrom?_eq

end Lookahead.Token
