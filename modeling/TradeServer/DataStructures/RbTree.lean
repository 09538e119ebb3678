import TradeServer.DataStructures.DlList
import TradeServer.Library.Levels
import TradeServer.Library.SearchTree

/-!
# The red-black tree of `rb_tree.c`

All trees share one heap of nodes and the sentinel `NIL` in it. The functions
that exist in a left and a right version are written once for a side `d`. Keys
are only compared, so a natural number stands for an `unsigned long long`.
-/

namespace TradeServer

open Library

structure RbtNode where
  key : Nat
  ordersList : Addr
  color : Color
  parent : Addr
  left : Addr
  right : Addr
  deriving DecidableEq

namespace RbtNode

def child (n : RbtNode) : Dir → Addr
  | .left => n.left
  | .right => n.right

def setChild (n : RbtNode) (d : Dir) (p : Addr) : RbtNode :=
  match d with
  | .left => { n with left := p }
  | .right => { n with right := p }

def setParent (n : RbtNode) (p : Addr) : RbtNode := { n with parent := p }

def setColor (n : RbtNode) (c : Color) : RbtNode := { n with color := c }

end RbtNode

/-- The memory of all trees and of their lists, with the global `NIL`. -/
structure RbHeap where
  NIL : Addr
  nodes : Heap RbtNode
  dl : DlHeap

def RbHeap.empty : RbHeap := ⟨NULL, .empty, .empty⟩

/-- The first call allocates `NIL`, whose key stays unset. -/
def rbtInit (unset : Nat) (m : RbHeap) : RbHeap × Addr :=
  if m.NIL = NULL then
    ({ m with
      NIL := m.nodes.fresh
      nodes := m.nodes.alloc ⟨unset, NULL, .black, NULL, NULL, NULL⟩ }, m.nodes.fresh)
  else (m, m.NIL)

def rbtNewNode {σ : Type} (m : RbHeap) (key : Nat) (data : Addr)
    (dataCallback : Option (DataCallback σ)) (s : σ) : Option (RbHeap × Addr × σ) := do
  let (dl, ordersList) := dlListInit m.dl
  let (dl, s) ← dlListInsert dl ordersList data dataCallback s
  some ({ m with
    nodes := m.nodes.alloc ⟨key, ordersList, .red, m.NIL, m.NIL, m.NIL⟩
    dl := dl }, m.nodes.fresh, s)

/-- `if (child != NIL) child->parent = p`. -/
def adopt (NIL : Addr) (h : Heap RbtNode) (child p : Addr) : Option (Heap RbtNode) :=
  if child ≠ NIL then h.update child (·.setParent p) else some h

/-- `y` takes the place of `x` below `parent`, or becomes the root. -/
def replaceChild (NIL root : Addr) (h : Heap RbtNode) (parent x y : Addr) :
    Option (Addr × Heap RbtNode) :=
  if parent = NIL then some (y, h)
  else do
    let side := if x = (← h.load parent).left then .left else .right
    let h ← h.update parent (·.setChild side y)
    some (root, h)

/-- The rotation at `x` toward `d`: the child on the other side rises. -/
def rotate (d : Dir) (NIL root : Addr) (h : Heap RbtNode) (x : Addr) :
    Option (Addr × Heap RbtNode) := do
  let y := (← h.load x).child d.flip
  let yn ← h.load y
  let h ← h.update x (·.setChild d.flip (yn.child d))
  let h ← adopt NIL h (yn.child d) x
  let parent := (← h.load x).parent
  let h ← h.update y (·.setParent parent)
  let (root, h) ← replaceChild NIL root h parent x y
  let h ← h.update y (·.setChild d x)
  let h ← h.update x (·.setParent y)
  some (root, h)

def rotateLeft := rotate .left

def rotateRight := rotate .right

/-- `rotate_left` or `rotate_right`. -/
def rotateTo : Dir → Addr → Addr → Heap RbtNode → Addr → Option (Addr × Heap RbtNode)
  | .left => rotateLeft
  | .right => rotateRight

theorem rotateTo_eq (d : Dir) : rotateTo d = rotate d := by cases d <;> rfl

/-- The last lines of the case of a black uncle, when `z` is the outer grandchild. -/
def fixUpOuter (d : Dir) (NIL root : Addr) (h : Heap RbtNode) (z : Addr) :
    Option (Addr × Heap RbtNode) := do
  let parent := (← h.load z).parent
  let h ← h.update parent (·.setColor .black)
  let grandparent := (← h.load parent).parent
  let h ← h.update grandparent (·.setColor .red)
  rotateTo d.flip NIL root h grandparent

/-- The case of a black uncle when the parent of `z` is the child on side `d` of its own
parent. The new `z` comes back as well. -/
def fixUpRotate (d : Dir) (NIL root : Addr) (h : Heap RbtNode) (z : Addr) :
    Option (Addr × Heap RbtNode × Addr) := do
  let parent := (← h.load z).parent
  if z = (← h.load parent).child d.flip then
    let (root, h) ← rotateTo d NIL root h parent
    let (root, h) ← fixUpOuter d NIL root h parent
    some (root, h, parent)
  else
    let (root, h) ← fixUpOuter d NIL root h z
    some (root, h, z)

/-- The body of the loop of `fix_up` when the parent of `z` is the child on side `d` of
its own parent. -/
def fixUpSide (d : Dir) (NIL root : Addr) (h : Heap RbtNode) (z : Addr) :
    Option (Addr × Heap RbtNode × Addr) := do
  let parent := (← h.load z).parent
  let grandparent := (← h.load parent).parent
  let uncle := (← h.load grandparent).child d.flip
  if (← h.load uncle).color = .red then
    let h ← h.update parent (·.setColor .black)
    let h ← h.update uncle (·.setColor .black)
    let h ← h.update grandparent (·.setColor .red)
    some (root, h, grandparent)
  else fixUpRotate d NIL root h z

/-- The first argument bounds the number of turns of the loop. -/
def fixUp (NIL : Addr) : Nat → Addr → Heap RbtNode → Addr → Option (Addr × Heap RbtNode)
  | 0, _, _, _ => none
  | fuel + 1, root, h, z => do
    let parent := (← h.load z).parent
    let pn ← h.load parent
    if pn.color = .red then
      let side := if parent = (← h.load pn.parent).left then .left else .right
      let (root, h, z) ← fixUpSide side NIL root h z
      fixUp NIL fuel root h z
    else
      let h ← h.update root (·.setColor .black)
      some (root, h)

/-- The search of `rbt_insert`: the value of `search` when the loop stops. -/
def searchFor (h : Heap RbtNode) (NIL : Addr) (key : Nat) : Nat → Addr → Addr → Option Addr
  | 0, _, _ => none
  | fuel + 1, search, current =>
    if current = NIL then some search
    else do
      let n ← h.load current
      if key = n.key then some current
      else if key < n.key then searchFor h NIL key fuel current n.left
      else searchFor h NIL key fuel current n.right

/-- The new root comes back next to the memory. -/
def rbtInsert {σ : Type} (m : RbHeap) (root : Addr) (key : Nat) (data : Addr)
    (dataCallback : Option (DataCallback σ)) (s : σ) : Option (RbHeap × Addr × σ) := do
  let search ← searchFor m.nodes m.NIL key m.nodes.next m.NIL root
  if search = m.NIL then
    let (m, newNode, s) ← rbtNewNode m key data dataCallback s
    let h ← m.nodes.update newNode (·.setParent search)
    let (root, h) ← fixUp m.NIL h.next newNode h newNode
    some ({ m with nodes := h }, root, s)
  else
    let sn ← m.nodes.load search
    if key = sn.key then
      -- inserting order with the same price; `new_node` stays null
      let (dl, s) ← dlListInsert m.dl sn.ordersList data dataCallback s
      some ({ m with dl := dl }, root, s)
    else
      let (m, newNode, s) ← rbtNewNode m key data dataCallback s
      let side := if key < sn.key then .left else .right
      let h ← m.nodes.update search (·.setChild side newNode)
      let h ← h.update newNode (·.setParent search)
      let (root, h) ← fixUp m.NIL h.next root h newNode
      some ({ m with nodes := h }, root, s)

/-- The visitor works on a state of its own, which holds the lists; it cannot reach the
tree nodes. -/
def rbtVisitNodesInRange {σ : Type} (h : Heap RbtNode) (NIL : Addr) (lowKey highKey : Nat)
    (visitor : Addr → σ → Option σ) : Nat → Addr → σ → Option σ
  | 0, _, _ => none
  | fuel + 1, node, s =>
    if node = NULL ∨ node = NIL then some s
    else do
      let n ← h.load node
      let s ←
        if lowKey < n.key then rbtVisitNodesInRange h NIL lowKey highKey visitor fuel n.left s
        else some s
      let s ← if lowKey ≤ n.key ∧ n.key ≤ highKey then visitor n.ordersList s else some s
      if n.key < highKey then rbtVisitNodesInRange h NIL lowKey highKey visitor fuel n.right s
      else some s

/-- The nodes from `current` on, with their data. -/
def listItems (ns : Heap DllNode) : Nat → Addr → Option (List (Addr × Addr))
  | 0, _ => none
  | fuel + 1, current =>
    if current = NULL then some []
    else do
      let n ← ns.load current
      let rest ← listItems ns fuel n.next
      some ((current, n.data) :: rest)

/-- A walk in order: each key with what `select` takes from its list, the dummy head included. -/
def inorder (select : List (Addr × Addr) → List (Addr × Addr)) (m : RbHeap) :
    Nat → Addr → Option (Levels Nat (Addr × Addr))
  | 0, _ => none
  | fuel + 1, node =>
    if node = m.NIL then some []
    else do
      let n ← m.nodes.load node
      let before ← inorder select m fuel n.left
      let l ← m.dl.lists.load n.ordersList
      let items ← listItems m.dl.nodes m.dl.nodes.next l.head
      let after ← inorder select m fuel n.right
      some (before ++ (n.key, select items) :: after)

/-- What `rbt_inorder` prints, next to the color of each key; it skips null data. -/
def rbtInorder : RbHeap → Nat → Addr → Option (Levels Nat (Addr × Addr)) :=
  inorder (·.filter (·.2 ≠ NULL))

end TradeServer
