import ResumableQuery.Proofs.Cursor.Promises
import ResumableQuery.Proofs.Search.Directory

/-!
# What reading leaves as it is

Cursors that only read change the tasks, the budgets and the number of calls that are left, and so
do the tasks that they wait for.  Stores and search indexes stay as they are (`SameContent`),
however long it takes.  Tasks draw on no budget, so budgets change only where a cursor is charged
(`budgets_await`).
-/

namespace ResumableQuery.World

/-- The worlds have the same stores and the same search indexes, and if no call fails in the first
then none fails in the second. -/
structure SameContent (w w' : World) : Prop where
  stores : w'.stores = w.stores
  directory : w'.directory = w.directory
  calls : w.callsLeft = none → w'.callsLeft = none

theorem SameContent.refl (w : World) : w.SameContent w := ⟨rfl, rfl, id⟩

theorem SameContent.trans {w₁ w₂ w₃ : World} (h : w₁.SameContent w₂) (k : w₂.SameContent w₃) :
    w₁.SameContent w₃ where
  stores := k.stores.trans h.stores
  directory := k.directory.trans h.directory
  calls hc := k.calls (h.calls hc)

theorem SameContent.store {w w' : World} (h : w.SameContent w') (name : StoreName) :
    w'.store name = w.store name := by
  rw [World.store, World.store, h.stores]

theorem sameContent_call {w w' : World} (h : w.call = .ok w') : w.SameContent w' := by
  rw [call] at h
  split at h
  · cases h
    exact .refl w
  · cases h
  · rename_i hcalls
    cases h
    refine ⟨rfl, rfl, fun hnone => ?_⟩
    rw [hnone] at hcalls
    cases hcalls

theorem sameContent_get (w : World) (name : StoreName) (key : Bytes) :
    w.SameContent (w.get name key).1 := by
  rw [get]
  split
  · rename_i h
    exact sameContent_call h
  · exact .refl w

theorem sameContent_scan (w : World) (name : StoreName) (r : KeyRange) (reverse : Bool)
    (limit : Nat) : w.SameContent (w.scan name r reverse limit).1 := by
  rw [scan]
  split
  · rename_i h
    exact sameContent_call h
  · exact .refl w

theorem sameContent_setBudget (w : World) (budget : BudgetId) (b : Budget) :
    w.SameContent (w.setBudget budget b) :=
  ⟨rfl, rfl, id⟩

theorem sameContent_lookUp (w : World) (l : Lookup) : w.SameContent (w.lookUp l).1 := by
  rw [lookUp]
  split
  · exact .refl w
  · exact sameContent_get ..

/-! ### Tasks -/

/-- A relation of worlds that looking things up and keeping track of tasks lie within. -/
structure Allows (R : World → World → Prop) : Prop where
  refl (w) : R w w
  trans {w₁ w₂ w₃} : R w₁ w₂ → R w₂ w₃ → R w₁ w₃
  lookUp (w l) : R w (w.lookUp l).1
  tasks (w tasks ended) : R w { w with tasks := tasks, ended := ended }

section Allows

variable {R : World → World → Prop} (hR : Allows R)

include hR

theorem Allows.remember (w : World) (t : Task) (found : Option Found) :
    R w (w.remember t found) := by
  rw [World.remember]
  split
  · exact hR.refl w
  · exact hR.tasks w w.tasks _

theorem Allows.finish (w : World) (t : Task) : R w (w.finish t) := by
  rw [World.finish]
  split
  · exact hR.remember ..
  · exact hR.trans (hR.lookUp ..) (hR.remember ..)

theorem Allows.serve (tasks waiting : List Task) (w : World) : R w (serve tasks waiting w).1 := by
  induction tasks generalizing waiting w with
  | nil => exact hR.refl w
  | cons t tasks ih =>
    rw [World.serve]
    split
    · exact hR.trans (hR.finish w t) (ih ..)
    · exact ih ..

theorem Allows.afterTurn (w : World) : R w w.afterTurn := by
  have taken := hR.tasks w (w.tasks.drop turnSize) w.ended
  have served := hR.serve (w.tasks.take turnSize) [] { w with tasks := w.tasks.drop turnSize }
  exact hR.trans (hR.trans taken served) (hR.tasks _ _ _)

theorem Allows.await (w : World) (wait : Wait) : R w (w.await wait) := by
  rw [World.await]
  generalize w.workLeft + 1 = turns
  induction turns generalizing w with
  | zero => exact hR.refl w
  | succ turns ih =>
    rw [awaitWithin]
    split
    · exact hR.afterTurn w
    · exact hR.trans (hR.afterTurn w) (ih _)

end Allows

theorem allows_sameContent : Allows SameContent where
  refl := .refl
  trans h k := h.trans k
  lookUp := sameContent_lookUp
  tasks _ _ _ := ⟨rfl, rfl, id⟩

theorem sameContent_finish (w : World) (t : Task) : w.SameContent (w.finish t) :=
  allows_sameContent.finish w t

theorem sameContent_afterTurn (w : World) : w.SameContent w.afterTurn :=
  allows_sameContent.afterTurn w

theorem sameContent_await (w : World) (wait : Wait) : w.SameContent (w.await wait) :=
  allows_sameContent.await w wait

/-! ### Budgets -/

theorem budgets_call {w w' : World} (h : w.call = .ok w') : w'.budgets = w.budgets := by
  rw [call] at h
  split at h <;> cases h <;> rfl

theorem budgets_get (w : World) (name : StoreName) (key : Bytes) :
    (w.get name key).1.budgets = w.budgets := by
  rw [get]
  split
  · rename_i h
    exact budgets_call h
  · rfl

theorem budgets_scan (w : World) (name : StoreName) (r : KeyRange) (reverse : Bool) (limit : Nat) :
    (w.scan name r reverse limit).1.budgets = w.budgets := by
  rw [scan]
  split
  · rename_i h
    exact budgets_call h
  · rfl

theorem budgets_lookUp (w : World) (l : Lookup) : (w.lookUp l).1.budgets = w.budgets := by
  rw [lookUp]
  split
  · rfl
  · exact budgets_get ..

/-- Waiting draws on no budget. -/
theorem budgets_await (w : World) (wait : Wait) : (w.await wait).budgets = w.budgets :=
  have allows : Allows fun w w' => w'.budgets = w.budgets :=
    ⟨fun _ => rfl, fun h k => k.trans h, budgets_lookUp, fun _ _ _ => rfl⟩
  allows.await w wait

theorem budget_eq_of_budgets_eq {w w' : World} (h : w'.budgets = w.budgets) (id : BudgetId) :
    w'.budget id = w.budget id := by
  rw [budget, budget, h]

theorem length_budgets_setBudget (w : World) (id : BudgetId) (b : Budget) :
    (w.setBudget id b).budgets.length = w.budgets.length :=
  List.length_set

theorem budget_setBudget {w : World} {id : BudgetId} (h : id < w.budgets.length) (b : Budget) :
    (w.setBudget id b).budget id = b := by
  rw [budget, setBudget, List.getElem?_set_self h]
  rfl

theorem budget_newBudget (w : World) (limit : Option Nat) :
    (w.newBudget limit).1.budget w.budgets.length = Budget.new limit := by
  rw [newBudget, budget, List.getElem?_concat_length]
  rfl

end ResumableQuery.World
