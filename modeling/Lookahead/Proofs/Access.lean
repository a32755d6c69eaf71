import Lookahead.Grammar

/-!
# Access to what may not be there

Work that may not come to an end, and the operations in it that need something to be there: an entry
of an array, the bytes of a slice, enough to take a number away from. Work that is `checked` breaks
off where it is not (`Bounds.guard`), and `none` stands for that; work that is `unchecked` goes on as
the operations of the tables do.
-/

namespace Lookahead

/-- Whether work breaks off where it needs something that is not there. -/
inductive Bounds where
  | checked
  | unchecked
deriving DecidableEq

/-- The value `a`, which needs `c`. -/
def Bounds.guard {α : Type} (bounds : Bounds) (c : Prop) [Decidable c] (a : α) : Option α :=
  if bounds = .checked → c then some a else none

theorem Bounds.guard_eq {α : Type} {bounds : Bounds} {c : Prop} [Decidable c]
    (h : bounds = .checked → c) (a : α) : bounds.guard c a = some a :=
  if_pos h

/-! ### Work -/

/-- Work that may not come to an end, with the events met on the way. -/
abbrev Work (α : Type) := StateT (List Event) Option α

/-- Work that does come to an end. -/
def Noted.run {α : Type} (x : Noted α) : Work α := fun es => some (x.value, es ++ x.events)

/-- A recursion that has come to an end is gone from the work around it. -/
theorem Work.some_bind {α β : Type} (a : α) (f : α → Work β) :
    (liftM (some a : Option α) : Work α) >>= f = f a := rfl

theorem some_bind {α β : Type} (a : α) (f : α → Option β) : some a >>= f = f a := rfl

/-- A loop comes to an end if its body does on the values that come up. -/
theorem foldlM_eq_some {α β : Type} {f : β → α → β} {g : β → α → Option β} {P : β → Prop}
    {l : List α} (hf : ∀ b, P b → ∀ a ∈ l, g b a = some (f b a) ∧ P (f b a)) {b : β} (hb : P b) :
    l.foldlM g b = some (l.foldl f b) ∧ P (l.foldl f b) := by
  induction l generalizing b with
  | nil => exact ⟨rfl, hb⟩
  | cons a l ih =>
    obtain ⟨he, hp⟩ := hf b hb a List.mem_cons_self
    rw [List.foldlM_cons, he]
    exact ih (fun c hc d hd => hf c hc d (List.mem_cons_of_mem _ hd)) hp

theorem mapM_eq_some {α β : Type} {f : α → β} {g : α → Option β} {l : List α}
    (hf : ∀ a ∈ l, g a = some (f a)) : l.mapM g = some (l.map f) := by
  induction l with
  | nil => rfl
  | cons a l ih =>
    rw [List.mapM_cons, hf a List.mem_cons_self, ih fun b hb => hf b (List.mem_cons_of_mem _ hb)]
    rfl

theorem forM_eq_some {α : Type} {f : α → Option Unit} {l : List α}
    (hf : ∀ a ∈ l, f a = some ()) : l.forM f = some () := by
  induction l with
  | nil => rfl
  | cons a l ih =>
    show (f a >>= fun _ => l.forM f) = some ()
    rw [hf a List.mem_cons_self]
    exact ih fun b hb => hf b (List.mem_cons_of_mem _ hb)

theorem filterM_eq_some {α : Type} {f : α → Bool} {g : α → Option Bool} {l : List α}
    (hf : ∀ a ∈ l, g a = some (f a)) : l.filterM g = some (l.filter f) := by
  have haux (acc : List α) : l.filterAuxM g acc = some ((l.filter f).reverse ++ acc) := by
    induction l generalizing acc with
    | nil => rfl
    | cons a l ih =>
      rw [List.filterAuxM, hf a List.mem_cons_self]
      refine (ih (fun b hb => hf b (List.mem_cons_of_mem _ hb)) _).trans ?_
      cases hfa : f a <;> simp [hfa]
  rw [List.filterM, haux]
  simp

namespace Noted

variable {α β : Type}

@[simp] theorem run_pure (a : α) : (pure a : Noted α).run = pure a := by
  funext es
  exact congrArg (fun l => some (a, l)) (List.append_nil es)

@[simp] theorem run_bind (x : Noted α) (f : α → Noted β) :
    (x >>= f).run = x.run >>= fun a => (f a).run := by
  funext es
  exact congrArg (fun l => some ((f x.value).value, l)) (List.append_assoc ..).symm

/-- Only the value that has been computed matters for what comes after. -/
theorem run_bind_congr {x : Noted α} {f g : α → Work β} (h : f x.value = g x.value) :
    x.run >>= f = x.run >>= g := by
  funext es
  exact congrFun h _

theorem run_bind_of {x : Work α} {y : Noted α} {f : α → Work β} {g : α → Noted β} (hx : x = y.run)
    (hf : f y.value = (g y.value).run) : x >>= f = (y >>= g).run := by
  rw [hx, run_bind]
  exact run_bind_congr hf

/-- A loop runs as its body does on the values that come up. -/
theorem run_foldlM {f : β → α → Noted β} {g : β → α → Work β} {P : β → Prop} {l : List α}
    (hf : ∀ b, P b → ∀ a ∈ l, g b a = (f b a).run ∧ P (f b a).value) {b : β} (hb : P b) :
    l.foldlM g b = (l.foldlM f b).run ∧ P (l.foldlM f b).value := by
  induction l generalizing b with
  | nil => exact ⟨(run_pure b).symm, hb⟩
  | cons a l ih =>
    obtain ⟨he, hp⟩ := hf b hb a List.mem_cons_self
    obtain ⟨hl, hv⟩ := ih (fun c hc d hd => hf c hc d (List.mem_cons_of_mem _ hd)) hp
    exact ⟨run_bind_of he hl, hv⟩

theorem run_forM {f : α → Noted Unit} {g : α → Work Unit} {l : List α}
    (hf : ∀ a ∈ l, g a = (f a).run) : l.forM g = (l.forM f).run := by
  induction l with
  | nil => exact (run_pure ()).symm
  | cons a l ih =>
    exact run_bind_of (hf a List.mem_cons_self) (ih fun b hb => hf b (List.mem_cons_of_mem _ hb))

end Noted

variable {bounds : Bounds}

/-! ### Index sets -/

namespace IndexSet

variable (bounds) in
def get? (s : IndexSet) (i : Nat) : Option Bool := bounds.guard (i < s.size) (s.get i)

variable (bounds) in
def insert? (s : IndexSet) (i : Nat) : Option IndexSet := bounds.guard (i < s.size) (s.insert i)

variable (bounds) in
def erase? (s : IndexSet) (i : Nat) : Option IndexSet := bounds.guard (i < s.size) (s.erase i)

variable {s : IndexSet} {i : Nat} (h : bounds = .checked → i < s.size)
include h

theorem get?_eq : s.get? bounds i = some (s.get i) := Bounds.guard_eq h _

theorem insert?_eq : s.insert? bounds i = some (s.insert i) := Bounds.guard_eq h _

theorem erase?_eq : s.erase? bounds i = some (s.erase i) := Bounds.guard_eq h _

end IndexSet

/-! ### Graphs -/

namespace Graph

section

variable (bounds) (g : Graph) (i : NodeId)

def node? : Option Node := bounds.guard (i < g.size) (g.node i)

def setNext? (p : Option NodeId) : Option Graph := bounds.guard (i < g.size) (g.setNext i p)

def setUp? : Option Graph := bounds.guard (i < g.size) (g.setUp i)

def setKind? (k : NodeKind) : Option Graph := bounds.guard (i < g.size) (g.setKind i k)

def setSpan? (s : Option Span) : Option Graph := bounds.guard (i < g.size) (g.setSpan i s)

end

variable {g : Graph} {i : NodeId} (h : i < g.size)
include h

theorem node?_eq : g.node? bounds i = some (g.node i) := Bounds.guard_eq (fun _ => h) _

theorem setNext?_eq (p : Option NodeId) : g.setNext? bounds i p = some (g.setNext i p) :=
  Bounds.guard_eq (fun _ => h) _

theorem setUp?_eq : g.setUp? bounds i = some (g.setUp i) := Bounds.guard_eq (fun _ => h) _

theorem setKind?_eq (k : NodeKind) : g.setKind? bounds i k = some (g.setKind i k) :=
  Bounds.guard_eq (fun _ => h) _

theorem setSpan?_eq (s : Option Span) : g.setSpan? bounds i s = some (g.setSpan i s) :=
  Bounds.guard_eq (fun _ => h) _

end Graph

/-! ### Symbols and classes -/

namespace Table

section

variable (bounds) (t : Table)

def symbol? (a : SymbolId) : Option Symbol := bounds.guard (a < t.symbols.size) (t.symbol a)

def modifySymbol? (a : SymbolId) (f : Symbol → Symbol) : Option Table :=
  bounds.guard (a < t.symbols.size) (t.modifySymbol a f)

def charClass? (c : ClassId) : Option CharClass := bounds.guard (c < t.classes.size) (t.charClass c)

/-- The symbols on a list. -/
def symbols? (l : List SymbolId) : Option (List Symbol) := l.mapM (t.symbol? bounds)

end

variable {t : Table}

theorem symbol?_eq {a : SymbolId} (h : a < t.symbols.size) :
    t.symbol? bounds a = some (t.symbol a) :=
  Bounds.guard_eq (fun _ => h) _

theorem modifySymbol?_eq {a : SymbolId} (h : a < t.symbols.size) (f : Symbol → Symbol) :
    t.modifySymbol? bounds a f = some (t.modifySymbol a f) :=
  Bounds.guard_eq (fun _ => h) _

theorem charClass?_eq {c : ClassId} (h : c < t.classes.size) :
    t.charClass? bounds c = some (t.charClass c) :=
  Bounds.guard_eq (fun _ => h) _

theorem symbols?_eq {l : List SymbolId} (h : ∀ a ∈ l, a < t.symbols.size) :
    t.symbols? bounds l = some (l.map t.symbol) :=
  mapM_eq_some fun a ha => symbol?_eq (h a ha)

end Table

end Lookahead
