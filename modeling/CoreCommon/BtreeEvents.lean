import CoreCommon.Agenda
import CoreCommon.BtreeConsume
import CoreCommon.BtreeRuns

/-! The loop of a sweep over a tree of events: the first one is handled, which may insert others,
and then removed. `handle` stands for what is done at an event; a waiting event keeps the value
it was inserted with. -/
namespace CoreCommon.Btree
open AvlTree
variable {K V σ : Type}

namespace Heap

def insertAll (cmp : K → K → Bool) (fuel : ℕ) (s : Heap K V) (l : List (K × V)) :
    Run (Heap K V) :=
  l.foldlM (fun s ev => do
    let (s, _) ← s.insert cmp fuel ev.1 ev.2
    .ok s) s

/-- `while (event.ptr) { EventNode* e = &*event.begin(); ..; e->remove(); }`, and the events that
have been handled. -/
def sweep (cmp : K → K → Bool) (fuel : ℕ) (handle : σ → K × V → σ × List (K × V)) :
    ℕ → Heap K V → σ → Run (Heap K V × σ × List (K × V))
  | 0, s, st => if s.ptr.isSome then .error .diverges else .ok (s, st, [])
  | rounds + 1, s, st =>
    if s.ptr.isSome then do
      let it ← s.rootBegin fuel
      let e ← deref it.current
      let n ← s.node e
      let r := handle st (n.x, n.v)
      let s ← s.insertAll cmp fuel r.2
      let (s, _) ← s.remove fuel e
      let (s, st, done) ← s.sweep cmp fuel handle rounds r.1
      .ok (s, st, (n.x, n.v) :: done)
    else .ok (s, st, [])

end Heap

variable {cmp : K → K → Bool} {s : Heap K V} {t : Tree K V} {fuel : ℕ}
  {handle : σ → K × V → σ × List (K × V)} {st : σ}

/-- The events in a tree, in order. -/
def events (t : Tree K V) : List (K × V) := t.inorder.map Prod.snd

end CoreCommon.Btree
