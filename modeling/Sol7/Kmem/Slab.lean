import Sol7.Lib.Chains
import Sol7.Lib.Ring
import Sol7.Lib.System

/-!
# The Slab Layer

A cache takes memory from the page layer one slab at a time and cuts a slab into
chunks. Every chunk has a bufctl, which is on the free list of the slab or, in a
hashed cache, on the chain of the address in the hash table of the cache. In a raw
cache the bufctl of a free chunk is a word of the chunk itself, and the slab structure
is at the end of the page.

All slabs are on a ring whose header is the null slab, those without a free chunk
before those with one, and `cache_freelist` is the first one that has a free chunk.
The free list of a slab ends at `slab_tail`. The link of that bufctl is garbage, and so
is `slab_head` once the last chunk is gone.

A routine holds `cache_lock` except where it talks to the page layer and to the caches
of slab structures and bufctls. One step of the system is the code of a thread between
two such places. The code that runs without the lock is private to the thread, apart
from the resources it takes and gives back, and the outcome of every request for one
is a part of the label.

The statistics and the checks for debugging are left out. A null pointer that is
followed, a bad address and a search that does not end are no result of a routine, and
the system records them as a fault.

## Main definitions

* `Config`: The sizes of a cache, as `kmem_cache_create` chooses them.
* `Store`, `World`: What is written when a slab is created, and everything.
* `kmemSlabCreate`: Taking the resources of a slab and cutting it up.
* `handOut`, `takeChunk`, `allocBegin`, `allocResume`: `kmem_cache_alloc_global`.
* `kmemCacheFreeGlobal`: Giving a buffer back.
* `pageFree`, `release`: `kmem_slab_destroy` after the lock is dropped.
* `hashRescale`: A new hash table.
* `system`: All of them in any order.
-/

namespace Sol7.Kmem

open Function

/-! ### The sizes of a cache -/

/-- The sizes of a cache. The slab structure of a raw cache takes a part of the page. -/
structure Config where
  hash : Bool
  pageshift : Nat
  slabsize : Nat
  chunksize : Nat
  align : Nat
  offset : Nat
  sizeofSlab : Nat
  hashShift : Nat
  chunksize_pos : 0 < chunksize
  fits : chunksize + (if hash then 0 else sizeofSlab) ≤ slabsize
  whole : 2 ^ pageshift ∣ slabsize
  raw : hash = false → slabsize = 2 ^ pageshift
  hashed : hash = true → slabsize % chunksize < 2 ^ pageshift

namespace Config

variable (c : Config)

/-- `be_pagesize` -/
def pagesize : Nat := 2 ^ c.pageshift

/-- The part of a slab that is cut into chunks. -/
def room : Nat := c.slabsize - if c.hash then 0 else c.sizeofSlab

/-- `cache_maxcolor` -/
def maxcolor : Nat := c.room % c.chunksize

/-- The number of chunks of a slab. -/
def perSlab : Nat := c.room / c.chunksize

/-- `a & -pagesize` -/
def pageBase (a : Nat) : Nat := a / c.pagesize * c.pagesize

/-- The chunks of a slab that begin at a base. -/
def chunksAt (base : Nat) : List Nat := (List.range c.perSlab).map fun i => base + i * c.chunksize

def kmemHash (mask a : Nat) : Nat := a >>> c.hashShift &&& mask

end Config

/-! ### The state -/

/-- What `kmem_slab_create` writes once, by the addresses of slab structures and
    bufctls, and the resources that the cache holds. -/
structure Store where
  cache : Nat → Bool
  base : Nat → Nat
  chunks : Nat → Nat
  addr : Nat → Nat
  slab : Nat → Nat
  pages : List Nat
  slabs : List Nat
  bufctls : List Nat

/-- Where a thread is while it does not hold the lock: in `kmem_slab_create` with a color,
    back from there with a slab, in `kmem_slab_destroy` before and after the pages are
    gone, or in `kmem_hash_rescale` with the size of a new table. -/
inductive Pc where
  | idle
  | create (color : Nat)
  | built (sp : Nat)
  | destroy (sp : Nat)
  | release (sp : Nat)
  | rescale (size : Nat)
  deriving DecidableEq

/-- The slabs, the bufctls, the cache and the threads. The null slab has address 0. The
    buffers that are allocated and not yet freed are in `out`. -/
structure World where
  store : Store
  next : Nat → Option Nat
  prev : Nat → Option Nat
  head : Nat → Option Nat
  tail : Nat → Option Nat
  refcnt : Nat → Nat
  bcNext : Nat → Option Nat
  freelist : Nat
  color : Nat
  buftotal : Nat
  table : Nat → Option Nat
  hashMask : Nat
  call : Nat → Pc
  out : List Nat
  fault : Bool

/-- The buffer of a bufctl. -/
def Store.bufOf (c : Config) (st : Store) (bcp : Nat) : Nat :=
  if c.hash then st.addr bcp else bcp - c.offset

/-- The slab structure on the page of a raw buffer. -/
def Config.rawSlab (c : Config) (buf : Nat) : Nat := c.pageBase buf + (c.pagesize - c.sizeofSlab)

/-- The slab of a bufctl. -/
def Store.slabOf (c : Config) (st : Store) (bcp : Nat) : Nat :=
  if c.hash then st.slab bcp else c.rawSlab (bcp - c.offset)

variable (w : World)

/-- A thread goes on to another place. -/
def World.goto (t : Nat) (pc : Pc) : World := { w with call := update w.call t pc }

/-! ### Creating a slab -/

/-- The answers to the requests of one `kmem_slab_create`. -/
structure Answers where
  page : Option Nat
  slab : Option Nat
  bufctl : List (Option Nat)

/-- Resources are not handed out twice. Pages are aligned and come as a range that is
    apart from all others. -/
def Answers.Fresh (c : Config) (st : Store) (a : Answers) : Prop :=
  (∀ p ∈ a.page, c.pagesize ∣ p ∧
    ∀ q ∈ st.pages, p + c.slabsize ≤ q ∨ q + c.slabsize ≤ p) ∧
  (∀ sp ∈ a.slab, sp ≠ 0 ∧ sp ∉ st.slabs) ∧
  (a.bufctl.filterMap id).Nodup ∧ ∀ b ∈ a.bufctl.filterMap id, b ∉ st.bufctls

instance (c : Config) (st : Store) (a : Answers) : Decidable (a.Fresh c st) :=
  inferInstanceAs (Decidable (_ ∧ _ ∧ _ ∧ _))

/-- The memory that the loop of `kmem_slab_create` writes, and the two ends of the free
    list of the slab. -/
structure Fill where
  bcNext : Nat → Option Nat
  addr : Nat → Nat
  slab : Nat → Nat
  bufctls : List Nat
  head : Option Nat
  tail : Option Nat

/-- One round of the loop. -/
def Fill.chunk (c : Config) (f : Fill) (sp buf chunks bcp : Nat) : Fill where
  bcNext := update f.bcNext bcp f.head
  addr := if c.hash then update f.addr bcp buf else f.addr
  slab := if c.hash then update f.slab bcp sp else f.slab
  bufctls := if c.hash then bcp :: f.bufctls else f.bufctls
  head := some bcp
  tail := if chunks = 0 then some bcp else f.tail

/-- The loop of `kmem_slab_create`. The result says whether all bufctls were there. -/
def fillLoop (c : Config) (sp limit : Nat) (answers : List (Option Nat)) :
    Nat → Nat → Nat → Fill → Fill × Nat × Bool
  | 0, _, chunks, f => (f, chunks, false)
  | n + 1, buf, chunks, f =>
    if buf + c.chunksize ≤ limit then
      match if c.hash then answers[chunks]?.join else some (buf + c.offset) with
      | none => (f, chunks, false)
      | some bcp =>
        fillLoop c sp limit answers n (buf + c.chunksize) (chunks + 1) (f.chunk c sp buf chunks bcp)
    else (f, chunks, true)

/-- Free the bufctls of a list that ends in a null pointer. -/
def freeBufctls (next : Nat → Option Nat) : Nat → Option Nat → List Nat → Option (List Nat)
  | 0, _, _ => none
  | _ + 1, none, bufctls => some bufctls
  | n + 1, some bcp, bufctls => freeBufctls next n (next bcp) (bufctls.filter (· ≠ bcp))

/-- The memory before the loop of `kmem_slab_create`. -/
def World.toFill (sp : Nat) : Fill where
  bcNext := w.bcNext
  addr := w.store.addr
  slab := w.store.slab
  bufctls := w.store.bufctls
  head := none
  tail := w.tail sp

/-- A slab is complete. -/
def World.withSlab (c : Config) (w : World) (t page color sp chunks : Nat) (f : Fill) : World :=
  { w with
    store := {
      cache := update w.store.cache sp true
      base := update w.store.base sp (page + color)
      chunks := update w.store.chunks sp chunks
      addr := f.addr
      slab := f.slab
      pages := page :: w.store.pages
      slabs := if c.hash then sp :: w.store.slabs else w.store.slabs
      bufctls := f.bufctls }
    head := update w.head sp f.head
    tail := update w.tail sp f.tail
    refcnt := update w.refcnt sp 0
    bcNext := f.bcNext
    call := update w.call t (.built sp) }

/-- A bufctl was missing: the slab structure is as the code left it, the bufctls, the
    structure and the pages are given back, and the allocation fails. -/
def World.withoutSlab (t page color sp : Nat) (f : Fill) : Option World :=
  (freeBufctls f.bcNext (f.bufctls.length + 1) f.head f.bufctls).map fun bufctls =>
    { w with
      store := { w.store with
        cache := update w.store.cache sp true
        base := update w.store.base sp (page + color)
        addr := f.addr
        slab := f.slab
        bufctls := bufctls }
      head := update w.head sp none
      tail := update w.tail sp f.tail
      refcnt := update w.refcnt sp 0
      bcNext := f.bcNext
      call := update w.call t .idle }

/-- `kmem_slab_create` without the lock. -/
def kmemSlabCreate (c : Config) (w : World) (t color : Nat) (a : Answers) : Option World :=
  match a.page with
  | none => some (w.goto t .idle)
  | some page =>
    match if c.hash then a.slab else some (page + c.slabsize - c.sizeofSlab) with
    | none => some (w.goto t .idle)
    | some sp =>
      match fillLoop c sp (page + c.room) a.bufctl (c.slabsize + 1) (page + color) 0
        (w.toFill sp) with
      | (f, chunks, true) => some (w.withSlab c t page color sp chunks f)
      | (f, _, false) => w.withoutSlab t page color sp f

/-! ### Allocating -/

/-- Hand the first chunk of a slab out. -/
def handOut (c : Config) (w : World) (sp bcp : Nat) : World :=
  let w := { w with
    head := update w.head sp (w.bcNext bcp)
    refcnt := update w.refcnt sp (w.refcnt sp + 1) }
  if c.hash then
    let buf := w.store.addr bcp
    let h := c.kmemHash w.hashMask buf
    { w with
      bcNext := update w.bcNext bcp (w.table h)
      table := update w.table h (some bcp)
      out := buf :: w.out }
  else { w with out := (bcp - c.offset) :: w.out }

/-- Take a chunk from a slab that has one. The slab leaves the free list with its last
    chunk. -/
def takeChunk (c : Config) (w : World) (sp : Nat) : Option World :=
  (w.head sp).bind fun bcp =>
    if w.tail sp = some bcp then
      (w.next sp).map fun snext =>
        handOut c { w with freelist := snext, tail := update w.tail sp none } sp bcp
    else some (handOut c w sp bcp)

/-- The color of the next slab. -/
def nextColor (c : Config) (w : World) : Nat :=
  if w.color + c.align > c.maxcolor then 0 else w.color + c.align

/-- `kmem_cache_alloc_global` up to the end or to where `kmem_slab_create` drops the lock. -/
def allocBegin (c : Config) (w : World) (t : Nat) : Option World :=
  if w.head w.freelist = w.tail w.freelist ∧ w.head w.freelist = none then
    some ({ w with color := nextColor c w }.goto t (.create (nextColor c w)))
  else takeChunk c w w.freelist

/-- Put a new slab at the end of the ring. -/
def linkSlab (sp : Nat) : Option World :=
  (w.prev 0).map fun sprev =>
    { w with
      next := update (update w.next sp (some 0)) sprev (some sp)
      prev := update (update w.prev sp (some sprev)) 0 (some sp)
      freelist := sp }

/-- `kmem_cache_alloc_global` with a new slab, which may be one too many by now. It is then
    destroyed, which drops the lock again. -/
def allocResume (c : Config) (w : World) (t sp : Nat) : Option World :=
  let w := { w with buftotal := w.buftotal + w.store.chunks sp }
  if w.freelist = 0 then (linkSlab (w.goto t .idle) sp).bind fun w => takeChunk c w sp
  else
    (takeChunk c w w.freelist).map fun w =>
      { w with buftotal := w.buftotal - w.store.chunks sp }.goto t (.destroy sp)

/-! ### Freeing -/

/-- Find the bufctl and the slab of a buffer. In a hashed cache the bufctl is taken out of
    its chain. -/
def lookup (c : Config) (w : World) (buf : Nat) : Option (Nat × Nat × World) :=
  if c.hash then
    let h := c.kmemHash w.hashMask buf
    (findBy w.bcNext (fun bcp => w.store.addr bcp = buf) (w.buftotal + 1) none (w.table h)).map
      fun r =>
        let l := setLink r.1 (w.bcNext r.2) (w.table h) w.bcNext
        (r.2, w.store.slab r.2, { w with table := update w.table h l.1, bcNext := l.2 })
  else some (buf + c.offset, c.rawSlab buf, w)

/-- Move a slab to the front of the free list, unless it is there already. -/
def toFreelist (sp : Nat) : Option World := do
  let snext ← w.next sp
  if snext = w.freelist then some { w with freelist := sp }
  else
    let sprev ← w.prev sp
    let next := update w.next sprev (some snext)
    let prev := update w.prev snext (some sprev)
    let sprev ← prev w.freelist
    some { w with
      next := update (update next sp (some w.freelist)) sprev (some sp)
      prev := update (update prev sp (some sprev)) w.freelist (some sp)
      freelist := sp }

/-- Put a bufctl at the end of the free list of its slab. -/
def putChunk (sp bcp : Nat) : Option World :=
  match w.tail sp with
  | none =>
    toFreelist { w with
      tail := update w.tail sp (some bcp)
      head := update w.head sp (some bcp) } sp
  | some old =>
    some { w with
      tail := update w.tail sp (some bcp)
      bcNext := update w.bcNext old (some bcp) }

/-- Take a slab without outstanding buffers off the ring. `kmem_slab_destroy` then drops
    the lock. -/
def retire (t sp : Nat) : Option World := do
  let snext ← w.next sp
  let sprev ← w.prev sp
  some ({ w with
    prev := update w.prev snext (some sprev)
    next := update w.next sprev (some snext)
    freelist := if sp = w.freelist then snext else w.freelist
    buftotal := w.buftotal - w.store.chunks sp }.goto t (.destroy sp))

/-- `kmem_cache_free_global`. A bad address is no result. -/
def kmemCacheFreeGlobal (c : Config) (w : World) (t buf : Nat) : Option World := do
  let (bcp, sp, w) ← lookup c w buf
  if w.store.cache sp = false ∨ buf < w.store.base sp ∨ c.slabsize ≤ buf - w.store.base sp then none
  else
    let w ← putChunk { w with out := w.out.erase buf } sp bcp
    let w := { w with refcnt := update w.refcnt sp (w.refcnt sp - 1) }
    if w.refcnt sp = 0 then retire w t sp else some w

/-- `kmem_slab_destroy` gives the pages back. -/
def pageFree (c : Config) (w : World) (t sp : Nat) : World :=
  { w with store := { w.store with
    pages := w.store.pages.filter (· ≠ c.pageBase (w.store.base sp)) } }.goto t
      (if c.hash then .release sp else .idle)

/-- `kmem_slab_destroy` gives the bufctls and the slab structure of a hashed cache back. -/
def release (t sp : Nat) : Option World := do
  let old ← w.tail sp
  let bcNext := update w.bcNext old none
  let bufctls ← freeBufctls bcNext (w.store.bufctls.length + 1) (w.head sp) w.store.bufctls
  some ({ w with
    bcNext := bcNext
    head := update w.head sp none
    store := { w.store with
      bufctls := bufctls
      slabs := w.store.slabs.filter (· ≠ sp) } }.goto t .idle)

/-! ### The hash table -/

/-- The size that `kmem_hash_rescale` computes, without the lock. -/
def newSize (buftotal : Nat) : Nat := max 64 (1 <<< (Nat.log2 (3 * buftotal + 4) + 1 - 2))

/-- `kmem_hash_rescale` with the lock. -/
def hashRescale (c : Config) (w : World) (t size : Nat) : Option World :=
  (rehash (fun bcp => c.kmemHash (size - 1) (w.store.addr bcp)) (w.buftotal + 1) w.table
    (w.hashMask + 1) (fun _ => none, w.bcNext)).map fun r =>
      { w with hashMask := size - 1, table := r.1, bcNext := r.2 }.goto t .idle

/-! ### The system -/

/-- The steps of the threads. With `scribble` a client writes into a raw buffer, where the
    bufctl of a free chunk would be. -/
inductive Label where
  | allocBegin (t : Nat)
  | create (t : Nat) (a : Answers)
  | allocResume (t : Nat)
  | free (t buf : Nat)
  | pageFree (t : Nat)
  | release (t : Nat)
  | rescaleBegin (t : Nat)
  | rescale (t : Nat) (zalloc : Bool)
  | scribble (buf : Nat) (v : Option Nat)

/-- A routine without a result is a fault. -/
def World.orFault (r : Option World) : World := r.getD { w with fault := true }

/-- The system. Only outstanding buffers are freed, by threads that do nothing else. -/
def step (c : Config) (w : World) : Label → Option World
  | .allocBegin t => if w.call t = .idle then some (w.orFault (allocBegin c w t)) else none
  | .create t a =>
    match w.call t with
    | .create color =>
      if a.Fresh c w.store then some (w.orFault (kmemSlabCreate c w t color a)) else none
    | _ => none
  | .allocResume t =>
    match w.call t with
    | .built sp => some (w.orFault (allocResume c w t sp))
    | _ => none
  | .free t buf =>
    if w.call t = .idle ∧ buf ∈ w.out then some (w.orFault (kmemCacheFreeGlobal c w t buf))
    else none
  | .pageFree t =>
    match w.call t with
    | .destroy sp => some (pageFree c w t sp)
    | _ => none
  | .release t =>
    match w.call t with
    | .release sp => some (w.orFault (release w t sp))
    | _ => none
  | .rescaleBegin t =>
    if w.call t = .idle ∧ c.hash then some (w.goto t (.rescale (newSize w.buftotal))) else none
  | .rescale t zalloc =>
    match w.call t with
    | .rescale size =>
      if zalloc then some (w.orFault (hashRescale c w t size)) else some (w.goto t .idle)
    | _ => none
  | .scribble buf v =>
    if c.hash = false ∧ buf ∈ w.out then
      some { w with bcNext := update w.bcNext (buf + c.offset) v }
    else none

/-- A new cache. -/
structure Initial (w : World) : Prop where
  next : w.next 0 = some 0
  prev : w.prev 0 = some 0
  head : w.head 0 = none
  tail : w.tail 0 = none
  freelist : w.freelist = 0
  buftotal : w.buftotal = 0
  table : w.table = fun _ => none
  call : ∀ t, w.call t = .idle
  pages : w.store.pages = []
  slabs : w.store.slabs = []
  bufctls : w.store.bufctls = []
  out : w.out = []
  fault : w.fault = false

/-- The slab layer of one cache. -/
def system (c : Config) : System World Label where
  init := Initial
  step := step c

end Sol7.Kmem
