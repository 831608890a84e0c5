import Predictive.Grammar

/-!
# Derivations

One step of a derivation replaces a nonterminal by one of its alternatives anywhere in a string, or drops
an epsilon. `Derives` is any number of steps; it may be used inside a longer string (`Derives.context`),
so what two strings derive, their concatenation derives (`Derives.append`).

A leftmost derivation of a string of terminals is settled by the productions it uses, in order:
`Leftmost ps u w` says that using `ps` in turn on the leftmost nonterminal leads from `u` to `w`.
-/

namespace Predictive.Grammar
variable {T : Type} {g : Grammar T}

/-- One step of a derivation. -/
inductive Yields (g : Grammar T) : g.Form → g.Form → Prop where
  | replace (p : g.Production) (u v : g.Form) :
    Yields g (u ++ .nonterminal p.left :: v) (u ++ p.right ++ v)
  | drop (u v : g.Form) : Yields g (u ++ .epsilon :: v) (u ++ v)

/-- Any number of steps. -/
inductive Derives (g : Grammar T) : g.Form → g.Form → Prop where
  | refl (u : g.Form) : Derives g u u
  | head {u v w : g.Form} : Yields g u v → Derives g v w → Derives g u w

theorem Yields.context {u v : g.Form} (h : g.Yields u v) (a b : g.Form) :
    g.Yields (a ++ u ++ b) (a ++ v ++ b) := by
  cases h with
  | replace p u v => simpa using Yields.replace p (a ++ u) (v ++ b)
  | drop u v => simpa using Yields.drop (a ++ u) (v ++ b)

namespace Derives
variable {u v w : g.Form}

theorem trans (h : g.Derives u v) (h' : g.Derives v w) : g.Derives u w := by
  induction h with
  | refl => exact h'
  | head step _ ih => exact .head step (ih h')

theorem single (h : g.Yields u v) : g.Derives u v := .head h (.refl v)

theorem context (h : g.Derives u v) (a b : g.Form) : g.Derives (a ++ u ++ b) (a ++ v ++ b) := by
  induction h with
  | refl => exact .refl _
  | head step _ ih => exact .head (step.context a b) ih

theorem append {u' v' : g.Form} (h : g.Derives u v) (h' : g.Derives u' v') :
    g.Derives (u ++ u') (v ++ v') := by
  have left := h.context [] u'
  have right := h'.context v []
  simp only [List.nil_append, List.append_nil] at left right
  exact left.trans right

theorem production (p : g.Production) : g.Derives [.nonterminal p.left] p.right := by
  simpa using single (Yields.replace p [] [])

end Derives

/-- The start symbol and the end marker behind it. -/
def startForm [Terminal T] (g : Grammar T) : g.Form :=
  [.nonterminal g.start, .terminal Terminal.endMarker]

/-- Some string derived from the start symbol contains `x`. -/
def IsReachable (g : Grammar T) (x : g.Nonterminal) : Prop :=
  ∃ a b, g.Derives [.nonterminal g.start] (a ++ .nonterminal x :: b)

/-- In some string derived from a nonterminal, `t` stands right behind `x`. -/
def Follows (g : Grammar T) (t : T) (x : g.Nonterminal) : Prop :=
  ∃ y a b, g.Derives [.nonterminal y] (a ++ .nonterminal x :: .terminal t :: b)

/-- Some string derived from the start symbol ends in `x`. -/
def EndsIn (g : Grammar T) (x : g.Nonterminal) : Prop :=
  ∃ a, g.Derives [.nonterminal g.start] (a ++ [.nonterminal x])

/-- The productions of a leftmost derivation of a string of terminals, in order. -/
inductive Leftmost (g : Grammar T) : List g.Production → g.Form → List T → Prop where
  | nil : Leftmost g [] [] []
  | terminal {ps : List g.Production} {u : g.Form} {w : List T} (t : T) :
    Leftmost g ps u w → Leftmost g ps (.terminal t :: u) (t :: w)
  | epsilon {ps : List g.Production} {u : g.Form} {w : List T} :
    Leftmost g ps u w → Leftmost g ps (.epsilon :: u) w
  | expand {ps : List g.Production} {u : g.Form} {w : List T} (p : g.Production) :
    Leftmost g ps (p.right ++ u) w → Leftmost g (p :: ps) (.nonterminal p.left :: u) w

theorem Leftmost.derives {ps : List g.Production} {u : g.Form} {w : List T}
    (h : g.Leftmost ps u w) : g.Derives u (w.map .terminal) := by
  induction h with
  | nil => exact .refl _
  | terminal t _ ih => simpa using (Derives.refl [.terminal t]).append ih
  | epsilon _ ih => exact .head (Yields.drop [] _) ih
  | expand p _ ih => exact .head (by simpa using Yields.replace p [] _) ih

end Predictive.Grammar
