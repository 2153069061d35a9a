import Mathlib.Data.Int.Notation
import Mathlib.Data.Nat.Notation
import Mathlib.Logic.Function.Basic
import ModBroadcast.Automaton

namespace ModBroadcast

/-- The place of a thread in `broadcast_destroy_ex`.  What happens inside the
broadcast between `destroyed = 1` and the end of the member wait does not concern
the registry and is the one place `members`. -/
inductive DestroyPhase
  | destruct | grace | mark | members | refs | join | delete | fire | pool
  deriving DecidableEq

/-- The place of a thread in the functions that touch the registry.  The flag
`api` tells an API command from a dialplan join, `all` a call made by
`broadcast_destroy_all`. -/
inductive RegistryPc (ν : Type)
  | idle
  | lookup (n : ν) (api : Bool)
  | found (n : ν) (b : ℕ) (api : Bool)
  | alive (n : ν) (b : ℕ) (api : Bool)
  | passed (b : ℕ) (api : Bool)
  | bumped (b : ℕ) (api : Bool)
  | insert (n : ν)
  | seed (b : ℕ)
  | hold (b : ℕ) (api : Bool)
  | destroy (b : ℕ) (all : Bool) (k : DestroyPhase)
  | sweep
  deriving DecidableEq

/-- The fields of `broadcast_obj_t` that decide its lifetime. -/
structure Obj (ν : Type) where
  name : ν
  destruct : Bool
  destroyed : Bool
  live_refs : ℤ
  producer_thread : Bool
  pool_destroyed : Bool

/-- The shared memory: `broadcast_globals` and the objects.  `hash_readers` is the
number of threads inside `hash_rwlock` for reading. -/
structure Globals (ν : Type) where
  broadcast_hash : List (ν × ℕ)
  active_broadcasts : BitVec 32
  hash_readers : ℕ
  obj : ℕ → Option (Obj ν)

inductive RegistryChoice (ν : Type)
  | go
  | fail
  | alloc (b : ℕ)
  | destroy
  | timeout
  | pick (n : ν)
  deriving DecidableEq

variable {ν : Type} [DecidableEq ν]

def Globals.find (g : Globals ν) (n : ν) : Option ℕ := g.broadcast_hash.lookup n

def Globals.modify (g : Globals ν) (b : ℕ) (f : Obj ν → Obj ν) : Globals ν :=
  { g with obj := Function.update g.obj b ((g.obj b).map f) }

/-- `broadcast_find_and_ref` returns NULL and drops the read lock: a join goes on
to `broadcast_create`, an API command ends. -/
def Globals.miss (g : Globals ν) (n : ν) (api : Bool) : Globals ν × RegistryPc ν :=
  ({ g with hash_readers := g.hash_readers - 1 }, if api then .idle else .insert n)

/-- A broadcast as `broadcast_create` inserts it: `live_refs` is still zero. -/
def Obj.create (n : ν) : Obj ν := ⟨n, false, false, 0, true, false⟩

def findAndRef (g : Globals ν) : RegistryPc ν → Option (Globals ν × RegistryPc ν)
  -- inside the read lock from the lookup to the increment
  | .lookup n api =>
    match g.find n with
    | none => some (g, if api then .idle else .insert n)
    | some b => some ({ g with hash_readers := g.hash_readers + 1 }, .found n b api)
  -- the two flags are read one after the other
  | .found n b api =>
    (g.obj b).map fun o => if o.destroyed then g.miss n api else (g, .alive n b api)
  | .alive n b api =>
    (g.obj b).map fun o => if o.destruct then g.miss n api else (g, .passed b api)
  | .passed b api =>
    some (g.modify b fun o => { o with live_refs := o.live_refs + 1 }, .bumped b api)
  | .bumped b api => some ({ g with hash_readers := g.hash_readers - 1 }, .hold b api)
  | _ => none

/-- The insertion section of `broadcast_create`, with `b` the address of the new
object. -/
def createInsert (maxBroadcasts : ℕ) (g : Globals ν) (n : ν) (b : ℕ) :
    Option (Globals ν × RegistryPc ν) :=
  if g.hash_readers ≠ 0 ∨ (g.obj b).isSome then none
  -- somebody else has created it meanwhile, or there are too many
  else if (g.find n).isSome ∨ maxBroadcasts ≤ g.active_broadcasts.toNat then some (g, .idle)
  else some ({ g with
    broadcast_hash := (n, b) :: g.broadcast_hash
    active_broadcasts := g.active_broadcasts + 1
    obj := Function.update g.obj b (some (.create n)) }, .seed b)

def destroyEx (g : Globals ν) (b : ℕ) (all : Bool) (c : RegistryChoice ν) :
    DestroyPhase → Option (Globals ν × RegistryPc ν)
  | .destruct => some (g.modify b fun o => { o with destruct := true }, .destroy b all .grace)
  | .grace => some (g, .destroy b all .mark)
  | .mark => some (g.modify b fun o => { o with destroyed := true }, .destroy b all .members)
  | .members => some (g, .destroy b all .refs)
  | .refs =>
    match g.obj b with
    | none => none
    | some o =>
      -- the poll ends at one reference or at its deadline
      if o.live_refs ≤ 1 ∨ c = .timeout then some (g, .destroy b all .join)
      else some (g, .destroy b all .refs)
  | .join => some (g.modify b fun o => { o with producer_thread := false }, .destroy b all .delete)
  | .delete =>
    match g.obj b with
    | none => none
    | some o =>
      -- deleted by name, whatever is stored under it by now
      if g.hash_readers ≠ 0 then none
      else some ({ g with
        broadcast_hash := g.broadcast_hash.filter fun e => e.1 ≠ o.name
        active_broadcasts := g.active_broadcasts - 1 }, .destroy b all .fire)
  | .fire => some (g, .destroy b all .pool)
  | .pool =>
    some (g.modify b fun o => { o with pool_destroyed := true }, if all then .sweep else .idle)

def registryThread (maxBroadcasts : ℕ) (g : Globals ν) (c : RegistryChoice ν) :
    RegistryPc ν → Option (Globals ν × RegistryPc ν)
  | .idle => none
  | .insert n =>
    match c with
    | .fail => some (g, .idle)
    | .alloc b => createInsert maxBroadcasts g n b
    | _ => none
  -- a store, not an increment, after the object has become visible
  | .seed b => some (g.modify b fun o => { o with live_refs := 1 }, .hold b false)
  | .hold b api =>
    -- only an API command goes on to destroy what it has pinned
    if c = .destroy ∧ api then some (g, .destroy b false .destruct)
    else some (g.modify b fun o => { o with live_refs := o.live_refs - 1 }, .idle)
  | .destroy b all k => destroyEx g b all c k
  | .sweep =>
    if g.hash_readers ≠ 0 then none
    else match c with
      | .pick n => (g.find n).map fun b =>
          (g.modify b fun o => { o with live_refs := o.live_refs + 1 }, .destroy b true .destruct)
      | _ => if g.broadcast_hash = [] then some (g, .idle) else none
  | pc => findAndRef g pc

/-- `broadcast_hash` with the objects behind it, and the threads that create, pin, release and destroy
them.  An object that has been destroyed keeps its fields: what a thread does with freed memory is
not modelled, only that it does so. -/
structure Registry (ν : Type) where
  g : Globals ν
  thread : ℕ → RegistryPc ν

inductive RegistryAction (ν : Type)
  | join (t : ℕ) (n : ν)
  | command (t : ℕ) (n : ν)
  | shutdown (t : ℕ)
  | step (t : ℕ) (c : RegistryChoice ν)
  deriving DecidableEq

def Registry.init : Registry ν := ⟨⟨[], 0, 0, fun _ => none⟩, fun _ => .idle⟩

def Registry.enter (r : Registry ν) (t : ℕ) (pc : RegistryPc ν) : Option (Registry ν) :=
  if r.thread t = .idle then some { r with thread := Function.update r.thread t pc } else none

/-- Every access to shared memory is a step of its own; a section of `hash_rwlock` taken for writing is
one step, since no other thread can be inside it. -/
def registryStep (maxBroadcasts : ℕ) (r : Registry ν) : RegistryAction ν → Option (Registry ν)
  | .join t n => r.enter t (.lookup n false)
  | .command t n => r.enter t (.lookup n true)
  | .shutdown t => r.enter t .sweep
  | .step t c =>
    (registryThread maxBroadcasts r.g c (r.thread t)).map fun x =>
      ⟨x.1, Function.update r.thread t x.2⟩

/-- A thread holds a reference to `b`: the creator from the insertion on, a pin
from the increment on, until the release. -/
def RegistryPc.holds (b : ℕ) : RegistryPc ν → Prop
  | .bumped b' _ | .seed b' | .hold b' _ | .destroy b' _ _ => b' = b
  | _ => False

instance (b : ℕ) : DecidablePred (RegistryPc.holds b : RegistryPc ν → Prop) := by
  intro pc
  cases pc <;> unfold RegistryPc.holds <;> infer_instance

def Registry.holders (r : Registry ν) (b : ℕ) : Set ℕ := {t | (r.thread t).holds b}

end ModBroadcast
