import Mathlib.Data.List.Basic
import SneppxAlg.Lib.Walk
import SneppxAlg.Net.HttpRequest

/-!
# Files of static directories

The loop over the static directories in `handle_connection` of `net/http/http_server.c`. Where the path of a
request starts with the URL prefix of a directory, what follows the prefix is put behind the directory, and
the file of that name is sent.

Nothing looks at the components of the remainder, so `..` in it leads out of the directory. Where a file is
opened, it is in the directory exactly if the remainder goes down the names again that it has gone up
(`contained_iff`). The name is cut to what the buffer holds, which can also turn another name into `..`.
-/

namespace SneppxAlg.Http

open Lib.Walk

/-- An entry of `static_dirs`. -/
structure StaticDir where
  urlPrefix : Bytes
  dir : Bytes
  dir_length_le : dir.length ≤ 255

/-- `SNEPPX_http_server_add_static_dir`; `none` is the return code -1. -/
def addStaticDir (dirs : List StaticDir) (urlPrefix dirPath : Bytes) : Option (List StaticDir) :=
  if 128 ≤ dirs.length then none
  else some (dirs ++ [⟨urlPrefix.take 255, dirPath.take 255, List.length_take_le 255 dirPath⟩])

/-- What follows the prefix, without a `/` in front. -/
def relPath (d : StaticDir) (path : Bytes) : Bytes :=
  let rel := path.drop d.urlPrefix.length
  if rel.head? = some 47 then rel.tail else rel

/-- `snprintf(filepath, sizeof(filepath), "%s/%s", …)`. -/
def filePath (d : StaticDir) (path : Bytes) : Bytes := (d.dir ++ 47 :: relPath d path).take 511

/-- The loop over the directories, which ends at the first file that can be opened. `canOpen` tells which
ones these are. -/
def openStatic (canOpen : Bytes → Bool) (path : Bytes) : List StaticDir → Option (StaticDir × Bytes)
  | [] => none
  | d :: dirs =>
    if strStartsWith path d.urlPrefix then
      if canOpen (filePath d path) then some (d, filePath d path) else openStatic canOpen path dirs
    else openStatic canOpen path dirs

/-! ## Places -/

def component (s : Bytes) : Move Bytes :=
  if s = [] ∨ s = [46] then .stay else if s = [46, 46] then .up else .down s

def moves (path : Bytes) : List (Move Bytes) := (path.splitOn 47).map component

/-- The place that a path leads to, from the working directory unless it starts with `/`. -/
def resolve (cwd : List Bytes) (path : Bytes) : List Bytes :=
  walk (if path.head? = some 47 then [] else cwd) (moves path)

/-- If a file is opened, it is in the directory that it has been looked for in. -/
def Contained (cwd : List Bytes) (canOpen : Bytes → Bool) (dirs : List StaticDir) (path : Bytes) : Prop :=
  ∀ d file, openStatic canOpen path dirs = some (d, file) → resolve cwd d.dir <+: resolve cwd file

/-- What fits the buffer behind the name of the directory. -/
def writtenRel (d : StaticDir) (path : Bytes) : Bytes := (relPath d path).take (510 - d.dir.length)

/-- The remainder goes down the names again that it has gone up. An empty name of the directory makes the
path of the file absolute, so then it starts from the root. -/
def Stays (cwd : List Bytes) (d : StaticDir) (path : Bytes) : Prop :=
  let c := course (moves (writtenRel d path))
  if d.dir = [] then cwd <+: c.down
  else (resolve cwd d.dir).drop ((resolve cwd d.dir).length - c.up) <+: c.down

theorem filePath_eq (d : StaticDir) (path : Bytes) : filePath d path = d.dir ++ 47 :: writtenRel d path := by
  have hle := d.dir_length_le
  have hrest : 511 - d.dir.length = 510 - d.dir.length + 1 := by omega
  rw [filePath, writtenRel, List.take_append, List.take_of_length_le (by omega), hrest, List.take_succ_cons]

theorem moves_append (s t : Bytes) : moves (s ++ 47 :: t) = moves s ++ moves t := by
  rw [moves, List.splitOn_append_cons_self, List.map_append, moves, moves]

theorem resolve_filePath (cwd : List Bytes) (d : StaticDir) (path : Bytes) :
    resolve cwd (filePath d path) =
      walk (if d.dir = [] then [] else resolve cwd d.dir) (moves (writtenRel d path)) := by
  rw [filePath_eq, resolve, moves_append, walk_append]
  cases hdir : d.dir with
  | nil => rfl
  | cons b dir => rw [if_neg (List.cons_ne_nil b dir)]; rfl

theorem stays_iff (cwd : List Bytes) (d : StaticDir) (path : Bytes) :
    Stays cwd d path ↔ resolve cwd d.dir <+: resolve cwd (filePath d path) := by
  rw [resolve_filePath, Stays]
  split_ifs with hdir
  · have hcwd : resolve cwd d.dir = cwd := by rw [hdir]; rfl
    rw [hcwd, walk_root]
  · exact (prefix_walk_iff _ _).symm

theorem openStatic_eq (canOpen : Bytes → Bool) (path : Bytes) (dirs : List StaticDir) :
    openStatic canOpen path dirs =
      (dirs.find? fun d => strStartsWith path d.urlPrefix && canOpen (filePath d path)).map fun d =>
        (d, filePath d path) := by
  induction dirs with
  | nil => rfl
  | cons d dirs ih =>
    rw [openStatic, List.find?_cons, ih]
    cases strStartsWith path d.urlPrefix <;> cases canOpen (filePath d path) <;> rfl

/-- What the directory needs that answers the request: the first one with the prefix of the path in which
the file is found. -/
theorem contained_iff (cwd : List Bytes) (canOpen : Bytes → Bool) (dirs : List StaticDir) (path : Bytes) :
    Contained cwd canOpen dirs path ↔
      ∀ d, (dirs.find? fun d => strStartsWith path d.urlPrefix && canOpen (filePath d path)) = some d →
        Stays cwd d path := by
  rw [Contained, openStatic_eq]
  constructor
  · intro h d hd
    rw [stays_iff]
    exact h d (filePath d path) (by rw [hd]; rfl)
  · rintro h d file hfile
    obtain ⟨d', hd, heq⟩ := Option.map_eq_some_iff.mp hfile
    obtain ⟨rfl, rfl⟩ := Prod.mk.inj heq
    exact (stays_iff cwd d' path).mp (h d' hd)

/-- The directory `/srv` under the prefix `/s`. -/
def sampleDir : StaticDir := ⟨[47, 115], [47, 115, 114, 118], by simp⟩

/-- `/s/../x` opens `/srv/../x`. -/
theorem not_contained_dots : ¬ Contained [] (fun _ => true) [sampleDir] [47, 115, 47, 46, 46, 47, 120] := by
  intro h
  have hfile := h sampleDir [47, 115, 114, 118, 47, 46, 46, 47, 120] (by rfl)
  exact absurd hfile (by decide)

end SneppxAlg.Http
