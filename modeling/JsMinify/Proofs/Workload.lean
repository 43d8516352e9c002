import JsMinify.Proofs.Node.Replacing
import JsMinify.Workload

/-!
# Replacing every node

The workload that replaces every node of a program and puts it back leaves the program as it was (`replaceAll_eq`): it
reports what the program itself sums up to.
-/

namespace JsMinify.Workload

open Node List

variable {text : String} {n : Node} {q : Parser}

theorem replaceAll_eq (h : parse text = (.ok n, q)) (hb : n.every hasBody) : replaceAll n = .ok n := by
  have hformed := parse_formed h
  obtain ⟨seen, hwalk, -, hmet⟩ := (hformed.covered hb hformed.isAbsent_eq_false).walk
  have hseen : ∀ x ∈ seen, n.at? x.1 = some x.2 := fun x hx => by
    obtain ⟨_, _, _, -, -, hat, -⟩ := (hmet x.1 x.2).1 hx
    exact hat
  unfold replaceAll
  rw [hwalk]
  refine congrArg Except.ok ?_
  clear hwalk hmet
  induction seen with
  | nil => rfl
  | cons x seen ih =>
    obtain ⟨hx, hseen⟩ := forall_mem_cons.1 hseen
    refine Eq.trans ?_ (ih hseen)
    exact congrArg (foldl _ · seen) ((replaceAt_replaceAt ..).trans (replaceAt_self hx))

end JsMinify.Workload
