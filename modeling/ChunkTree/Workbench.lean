import ChunkTree.Shell
import ChunkTree.Workbench.World

/-!
# The workbench

Named stores, chunkers, sections, archives, keys and runs of bytes, and the steps that can be taken
with them.  A step that fails makes nothing; it fails alone, and the next goes on.  Between steps the
workers of tiered stores do what closed gates do not keep them from.
-/

namespace ChunkTree

variable {α : Type}

/-- Things by their names. -/
abbrev Named (α : Type) := Std.ExtTreeMap String α

/-- The state between steps. -/
structure Workbench where
  world : World
  /-- The number for the next part of the world. -/
  next : Nat
  mounts : Named Mount
  /-- The names of the stores, the newest first. -/
  order : List String
  chunkers : Named Chunker
  sections : Named (Section World)
  archives : Named (Archive World)
  keys : Named Key
  data : Named Bytes

/-- Content to be split: given, or read through a section. -/
inductive Content where
  | bytes (bytes : Bytes)
  | stream (stream : InputStream)
  | named (name : String)

/-- What can be done in one step.  Where a step makes something, `as` names it. -/
inductive Step where
  | makeMemory (as : String)
  | openDisk (as directory : String)
  | makeTiered (as fast durable : String)
  | makeUnreachable (as : String)
  | makeThrowing (as : String)
  | makeHollow (as : String)
  | makeRecording (as inner : String)
  | makeGated (as inner : String)
  | openGate (store : String)
  | destroy (store : String)
  | put (store : String) (chunk : Chunk) (as : Option String)
  | get (store : String) (key : Key)
  | has (store : String) (key : Key)
  | count (store : String)
  | clear (store : String)
  | flush (store : String)
  | stats (store : String)
  | attempts (store : String)
  | calls (store : String)
  | writeFile (path : String) (bytes : Bytes)
  | showFile (path : String)
  | makeDirectory (path : String)
  | remove (path : String)
  | list (path : String)
  | makeChunker (as : String) (branches : Nat) (hasher : Option Hasher)
  | keyOf (chunker : String) (data : Bytes)
  | split (chunker : String) (content : Content) (store as : Option String) (collected : Bool)
  | join (chunker store : String) (key : Key) (as : String)
  | openBuffer (as : String) (buffer : Option Bytes)
  | openFile (as path : String)
  | size (part : String)
  | slice (part : String) (start stop : Nat) (as : String)
  | readAt (part : String) (position count : Nat)
  | readAll (part : String)
  | readInto (part : String) (buffer : Bytes) (offset : Nat)
  | makeArchive (as chunker store : String)
  | keep (archive : String) (content : Content) (as : Option String)
  | read (archive : String) (key : Key)
  | readTo (archive : String) (key : Key) (limit : Option Nat)
  | openContent (archive : String) (key : Key) (as : String)
  | runShell (archive store : String) (input : String)

/-- What a step shows. -/
inductive Answer where
  | done
  | failed (fault : Fault)
  | noSuchName
  | base (path : String)
  | stored (key : Key)
  | key (key : Key)
  | root (key : Key)
  | found (chunk : Option Chunk)
  | truth (value : Bool)
  | count (value : Nat)
  | stats (pending failed : Nat)
  | attempts (attempts : Attempts)
  | calls (puts gets : List Key)
  | bytes (bytes : Bytes)
  | entries (entries : List (String × Option Bytes))
  | chunker (branches keySize chunkSize : Nat)
  | split (root : Key) (chunks : Array Chunk)
  | opened (size : Nat)
  | size (size : Nat)
  | archive (chunkSize : Nat)
  | written (result : Except Fault Nat) (writes : List Nat) (bytes : Bytes)
  | transcript (output : Bytes) (unread : String)

namespace Workbench

/-- An empty workbench over an empty directory. -/
def empty : Workbench := ⟨.empty, 0, ∅, [], ∅, ∅, ∅, ∅, ∅⟩

/-- The work of all workers that closed gates do not keep from it, the newest store first. -/
def settle (bench : Workbench) (world : World) : World :=
  bench.order.foldl (fun world name =>
    match bench.mounts[name]? with
    | some mount => mount.settle world
    | none => world) world

/-- Adds a store, newer than all others. -/
def mount (bench : Workbench) (as : String) (mount : Nat → Mount) : Workbench :=
  { bench with
    next := bench.next + 1
    mounts := bench.mounts.insert as (mount bench.next)
    order := as :: bench.order.filter (· ≠ as) }

/-- Goes on with the thing of a name. -/
def withNamed (bench : Workbench) (table : Named α) (name : String)
    (next : α → Answer × Workbench) : Answer × Workbench :=
  match table[name]? with
  | some thing => next thing
  | none => (.noSuchName, bench)

/-- Goes on with the answer of an action on the world, or shows its fault. -/
def acting (bench : Workbench) (action : Action World α)
    (next : α → Workbench → Answer × Workbench) : Answer × Workbench :=
  match action.run bench.world with
  | (.ok answer, world) => next answer { bench with world := world }
  | (.error fault, world) => (.failed fault, { bench with world := world })

/-- Names a key, if there is a name for it. -/
def nameKey (bench : Workbench) (as : Option String) (key : Key) : Workbench :=
  match as with
  | some name => { bench with keys := bench.keys.insert name key }
  | none => bench

/-- Names a run of bytes. -/
def nameData (bench : Workbench) (name : String) (data : Bytes) : Workbench :=
  { bench with data := bench.data.insert name data }

/-- Names a section and shows its size. -/
def nameSection (bench : Workbench) (as : String) (part : Section World) : Answer × Workbench :=
  (.opened part.size, { bench with sections := bench.sections.insert as part })

/-- Names the root and the chunks of a tree: the chunks by the name, a `#` and their number. -/
def nameTree (bench : Workbench) (as : Option String) (root : Key) (chunks : Array Chunk) : Workbench :=
  match as with
  | none => bench
  | some name =>
    let named := chunks.foldl (fun (bench, index) chunk =>
      let numbered := name ++ "#" ++ toString index
      ((bench.nameKey (some numbered) chunk.key).nameData numbered (chunk.data.getD #[]),
        index + 1)) (bench, 0)
    named.1.nameKey (some name) root

/-- A sink that takes a number of bytes and fails on more.  It records the bytes taken and, the latest
first, the length of each write. -/
def limitedSink (limit : Option Nat) : Sink (World × Bytes × List Nat) := fun bytes => .of fun state =>
  let (world, taken, writes) := state
  let room := match limit with
    | some limit => limit - taken.size
    | none => bytes.size
  (.ok (bytes.size ≤ room), (world, taken ++ bytes.extract 0 room, bytes.size :: writes))

/-- Splits a section, with each chunk put into a store, if there is one, and recorded. -/
def splitRecorded (chunker : Chunker) (part : Section World) (store : Option Mount) (collected : Bool) :
    Action (World × Array Chunk) Key :=
  let collect : Collector (World × Array Chunk) := fun chunk => do
    match store with
    | some mount => (mount.store.put chunk).within .fst
    | none => pure ()
    .update fun (world, chunks) => (world, chunks.push chunk)
  if collected then do
    Allowance.usual.checkTree chunker part.size
    chunker.split (part.within .fst) (some collect)
  else chunker.split (part.within .fst) none

/-- Splits a section into a store and names what comes out. -/
def splitInto (bench : Workbench) (chunker : Chunker) (part : Section World) (store : Option Mount)
    (as : Option String) (collected : Bool) : Answer × Workbench :=
  match (splitRecorded chunker part store collected).run (bench.world, #[]) with
  | (.ok root, (world, chunks)) =>
    (.split root chunks, { bench with world := world }.nameTree as root chunks)
  | (.error fault, (world, _)) => (.failed fault, { bench with world := world })

/-- What a store of some kind only can do. -/
def special (bench : Workbench) (mount : Mount) (step : Step) : Answer × Workbench :=
  match step, mount.kind with
  | .openGate _, .gated number =>
    bench.acting (Action.within (World.gatePlace number) (.update fun _ => true))
      fun _ bench => (.done, bench)
  | .has _ key, .memory number =>
    (.truth (((World.memoryPlace number).view bench.world).contains key), bench)
  | .has _ key, .disk base =>
    bench.acting ((Disk.has base key).within World.filesPlace) fun answer bench => (.truth answer, bench)
  | .count _, .memory number => (.count ((World.memoryPlace number).view bench.world).size, bench)
  | .clear _, .memory number =>
    bench.acting (Action.within (World.memoryPlace number) (.update fun _ => ∅))
      fun _ bench => (.done, bench)
  | .clear _, .disk base =>
    bench.acting ((Disk.clear base).within World.filesPlace) fun _ bench => (.done, bench)
  | .flush _, .tiered _ => (.done, { bench with world := mount.settle bench.world })
  | .stats _, .tiered number =>
    let backlog := ((World.ledgerPlace number).view bench.world).backlog
    (.stats backlog.pending.length backlog.failed, bench)
  | .attempts _, .unreachable number =>
    (.attempts ((World.attemptsPlace number).view bench.world), bench)
  | .calls _, .recording number =>
    let journal := (World.journalPlace number).view bench.world
    bench.acting (Action.within (World.journalPlace number) (.update fun _ => .empty))
      fun _ bench => (.calls journal.puts.reverse journal.gets.reverse, bench)
  | _, _ => (.noSuchName, bench)

/-- Makes a store, by the stores that it is made of. -/
def makeStore (bench : Workbench) (step : Step) : Answer × Workbench :=
  match step with
  | .makeMemory as => (.done, bench.mount as .memory)
  | .openDisk as directory =>
    bench.acting ((Disk.openAt directory).within World.filesPlace) fun _ bench =>
      (.base directory, bench.mount as fun _ => .disk directory)
  | .makeTiered as fast durable =>
    bench.withNamed bench.mounts fast fun fast => bench.withNamed bench.mounts durable fun durable =>
      (.done, bench.mount as fun number => .tiered number fast durable)
  | .makeUnreachable as => (.done, bench.mount as .unreachable)
  | .makeThrowing as => (.done, bench.mount as fun _ => .throwing)
  | .makeHollow as => (.done, bench.mount as fun _ => .hollow)
  | .makeRecording as inner => bench.withNamed bench.mounts inner fun inner =>
      (.done, bench.mount as fun number => .recording number inner)
  | .makeGated as inner => bench.withNamed bench.mounts inner fun inner =>
      (.done, bench.mount as fun number => .gated number inner)
  | _ => (.noSuchName, bench)

/-- Uses a store. -/
def useStore (bench : Workbench) (step : Step) : Answer × Workbench :=
  match step with
  | .destroy store => bench.withNamed bench.mounts store fun mount =>
      (.done, { bench with
        world := mount.settle bench.world
        mounts := bench.mounts.erase store
        order := bench.order.filter (· ≠ store) })
  | .put store chunk as => bench.withNamed bench.mounts store fun mount =>
      let named := match as, chunk.data with
        | some name, some data => (bench.nameKey as chunk.key).nameData name data
        | _, _ => bench
      named.acting (mount.store.put chunk) fun _ bench =>
        (if chunk.isRequest then .done else .stored chunk.key, bench)
  | .get store key => bench.withNamed bench.mounts store fun mount =>
      bench.acting (mount.store.get key) fun chunk bench => (.found chunk, bench)
  | .openGate store | .has store _ | .count store | .clear store | .flush store | .stats store
  | .attempts store | .calls store => bench.withNamed bench.mounts store fun mount => bench.special mount step
  | _ => (.noSuchName, bench)

/-- Works on files. -/
def useFiles (bench : Workbench) (step : Step) : Answer × Workbench :=
  match step with
  | .writeFile path bytes =>
    bench.acting ((FileSystem.write path bytes).within World.filesPlace) fun _ bench => (.done, bench)
  | .showFile path => (.bytes (bench.world.files.read path), bench)
  | .makeDirectory path =>
    bench.acting ((FileSystem.createDirectories path).within World.filesPlace) fun _ bench =>
      (.done, bench)
  | .remove path =>
    bench.acting ((FileSystem.removeAll path).within World.filesPlace) fun count bench =>
      (.count count, bench)
  | .list path => (.entries (bench.world.files.listing path), bench)
  | _ => (.noSuchName, bench)

/-- Makes trees. -/
def useChunker (bench : Workbench) (step : Step) : Answer × Workbench :=
  match step with
  | .makeChunker as branches hasher =>
    bench.acting (.lift (Chunker.new branches hasher)) fun chunker bench =>
      (.chunker chunker.branches chunker.keySize chunker.chunkSize,
        { bench with chunkers := bench.chunkers.insert as chunker })
  | .keyOf chunker data => bench.withNamed bench.chunkers chunker fun chunker =>
      bench.acting (.lift (chunker.keyOf data)) fun key bench => (.key key, bench)
  | .split chunker content store as collected =>
    bench.withNamed bench.chunkers chunker fun chunker =>
      let go (mount : Option Mount) : Answer × Workbench :=
        match content with
        | .bytes bytes => bench.splitInto chunker (.ofBytes bytes) mount as collected
        | .stream stream => bench.splitInto chunker (.ofBytes stream.content) mount as collected
        | .named name => bench.withNamed bench.sections name fun part =>
            bench.splitInto chunker part mount as collected
      match store with
      | none => go none
      | some store => bench.withNamed bench.mounts store fun mount => go (some mount)
  | .join chunker store key as => bench.withNamed bench.chunkers chunker fun chunker =>
      bench.withNamed bench.mounts store fun mount =>
        bench.acting (chunker.join mount.store key) fun part bench => bench.nameSection as part
  | _ => (.noSuchName, bench)

/-- Reads through sections. -/
def useSection (bench : Workbench) (step : Step) : Answer × Workbench :=
  match step with
  | .openBuffer as buffer =>
    bench.acting (.lift (Section.ofBuffer buffer)) fun part bench => bench.nameSection as part
  | .openFile as path =>
    bench.acting ((Section.ofInput path).within World.filesPlace) fun (file, part) bench =>
      let place := World.inputPlace bench.next
      let opened := { bench with
        next := bench.next + 1
        world := place.update (bench.world.files, file) bench.world }
      opened.nameSection as (part.within place)
  | .size part => bench.withNamed bench.sections part fun part => (.size part.size, bench)
  | .slice part start stop as => bench.withNamed bench.sections part fun part =>
      bench.acting (.lift (part.slice start stop)) fun part bench => bench.nameSection as part
  | .readAt part position count => bench.withNamed bench.sections part fun part =>
      let work : Action World Bytes := do
        if position + count ≤ part.size then Allowance.usual.check count
        part.readAt position count
      bench.acting work fun bytes bench => (.bytes bytes, bench)
  | .readAll part => bench.withNamed bench.sections part fun part =>
      bench.acting (part.readAllowed .usual) fun bytes bench => (.bytes bytes, bench)
  | .readInto part buffer offset => bench.withNamed bench.sections part fun part =>
      bench.acting (part.readIntoAllowed .usual buffer offset) fun bytes bench => (.bytes bytes, bench)
  | _ => (.noSuchName, bench)

/-- Works with archives. -/
def useArchive (bench : Workbench) (step : Step) : Answer × Workbench :=
  match step with
  | .makeArchive as chunker store => bench.withNamed bench.chunkers chunker fun chunker =>
      bench.withNamed bench.mounts store fun mount =>
        (.archive chunker.chunkSize,
          { bench with archives := bench.archives.insert as ⟨chunker, mount.store⟩ })
  | .keep archive content as => bench.withNamed bench.archives archive fun archive =>
      let finish (work : Action World Key) : Answer × Workbench :=
        bench.acting work fun root bench => (.root root, bench.nameKey as root)
      match content with
      | .bytes bytes => finish (archive.keepBytes bytes)
      | .stream stream => finish (archive.keepStream stream)
      | .named name => bench.withNamed bench.sections name fun part =>
          finish (archive.keepAllowed .usual part)
  | .read archive key => bench.withNamed bench.archives archive fun archive =>
      bench.acting (archive.readAllowed .usual key) fun bytes bench => (.bytes bytes, bench)
  | .readTo archive key limit => bench.withNamed bench.archives archive fun archive =>
      let work := (archive.within .fst).readToAllowed .usual key (limitedSink limit)
      match work.run (bench.world, #[], []) with
      | (result, (world, taken, writes)) =>
        (.written result writes.reverse taken, { bench with world := world })
  | .openContent archive key as => bench.withNamed bench.archives archive fun archive =>
      bench.acting (archive.openAt key) fun part bench => bench.nameSection as part
  | .runShell archive store input => bench.withNamed bench.archives archive fun archive =>
      bench.withNamed bench.mounts store fun mount =>
        let shell : Shell World :=
          ⟨archive, mount.store, World.filesPlace, .usual, bench.settle, fun _ => none⟩
        match (shell.run input.toList).run (bench.world, #[]) with
        | (.ok unread, (world, output)) =>
          (.transcript output (Fault.untilNul (String.ofList unread)), { bench with world := world })
        | (.error fault, (world, _)) => (.failed fault, { bench with world := world })
  | _ => (.noSuchName, bench)

/-- Takes a step, and lets the workers go on. -/
def perform (bench : Workbench) (step : Step) : Answer × Workbench :=
  let (answer, bench) := match step with
    | .makeMemory .. | .openDisk .. | .makeTiered .. | .makeUnreachable .. | .makeThrowing ..
    | .makeHollow .. | .makeRecording .. | .makeGated .. => bench.makeStore step
    | .openGate .. | .destroy .. | .put .. | .get .. | .has .. | .count .. | .clear .. | .flush ..
    | .stats .. | .attempts .. | .calls .. => bench.useStore step
    | .writeFile .. | .showFile .. | .makeDirectory .. | .remove .. | .list .. => bench.useFiles step
    | .makeChunker .. | .keyOf .. | .split .. | .join .. => bench.useChunker step
    | .openBuffer .. | .openFile .. | .size .. | .slice .. | .readAt .. | .readAll ..
    | .readInto .. => bench.useSection step
    | .makeArchive .. | .keep .. | .read .. | .readTo .. | .openContent ..
    | .runShell .. => bench.useArchive step
  (answer, { bench with world := bench.settle bench.world })

end Workbench

end ChunkTree
