import BurrowBench.Foundation.PathResolution
import BurrowBench.Harness.Timer

/-! # The checkout of fetch-burrow.sh

The script updates what is under BUILD and leaves any other tree alone. It tells them
apart by the text of BURROW_DIR; which directory the text leads to is another matter.
-/
namespace BurrowBench.Tools.FetchBurrow
open PathResolution

structure Environment where
  build : Text
  burrowDir : Text
  burrowRepo : Text
  burrowRef : Text

/-- `${value:-fallback}` -/
def orDefault (value fallback : Text) : Text := if value = [] then fallback else value

namespace Environment
variable (env : Environment)

def buildPath : Text := orDefault env.build "build".toList
def dirPath : Text := orDefault env.burrowDir (env.buildPath ++ "/burrow".toList)
def repo : Text := orDefault env.burrowRepo "https://github.com/tamnd/burrow.git".toList
def ref : Text := orDefault env.burrowRef "main".toList

end Environment

inductive Command where
  | mkdirParent (dir : Text)
  | clone (repo dir : Text)
  | fetch (dir ref : Text)
  | checkout (dir : Text)
  | describe (dir : Text) (dirty : Bool)
  deriving DecidableEq

/-- What the script runs in: which paths are directories, the exit status of each command,
and what `git describe` says of a tree. -/
structure Host where
  isDir : Text → Bool
  exit : Command → ℕ
  described : Command → Text

structure Outcome where
  commands : List Command
  out : Text
  err : Text
  exit : ℕ
  deriving DecidableEq

/-- Under `set -e` the first command that fails ends the script. -/
def runCommands (host : Host) : List Command → List Command × ℕ
  | [] => ([], 0)
  | c :: rest =>
    if host.exit c = 0 then (c :: (runCommands host rest).1, (runCommands host rest).2)
    else ([c], host.exit c)

def identify (host : Host) (c : Command) : Text :=
  if host.exit c = 0 then host.described c else "unknown".toList

def fetchBurrow (env : Environment) (host : Host) : Outcome :=
  let dir := env.dirPath
  if ¬ env.buildPath ++ ['/'] <+: dir then
    if !host.isDir dir then ⟨[], [], "burrow-bench: no burrow at ".toList ++ dir, 1⟩
    else
      let id := identify host (.describe dir true)
      ⟨[.describe dir true], "using burrow at ".toList ++ dir ++ " (".toList ++ id ++ ")".toList, [], 0⟩
  else
    let update := [.fetch dir env.ref, .checkout dir]
    let commands :=
      if !host.isDir (dir ++ "/.git".toList) then .mkdirParent dir :: .clone env.repo dir :: update
      else update
    let (done, status) := runCommands host commands
    if status = 0 then
      let id := identify host (.describe dir false)
      ⟨done ++ [.describe dir false], "using burrow ".toList ++ env.ref ++ " (".toList ++ id ++ ")".toList, [], 0⟩
    else ⟨done, [], [], status⟩

variable {env : Environment} {host : Host}

theorem buildPath_ne_nil (env : Environment) : env.buildPath ≠ [] := by
  unfold Environment.buildPath orDefault
  split
  · decide
  · assumption

def LeavesAlone (env : Environment) (o : Outcome) : Prop :=
  (∀ c ∈ o.commands, c = .describe env.dirPath true) ∧ (o.exit = 0 ∨ o.exit = 1)

/-- What the script is for: it leaves every tree alone that is not strictly inside BUILD. -/
def TouchesInsideOnly (cwd : Dir '.') (env : Environment) : Prop :=
  ¬ StrictlyInside (resolve cwd '/' env.buildPath) (resolve cwd '/' env.dirPath) →
    ∀ host, LeavesAlone env (fetchBurrow env host)

theorem leavesAlone_of_not_prefix (h : ¬ env.buildPath ++ ['/'] <+: env.dirPath) (host : Host) :
    LeavesAlone env (fetchBurrow env host) := by
  unfold fetchBurrow
  dsimp only
  rw [if_pos h]
  split
  · exact ⟨by simp, Or.inr rfl⟩
  · exact ⟨by simp, Or.inl rfl⟩

def settledHost : Host := ⟨fun _ => true, fun _ => 0, fun _ => []⟩

theorem settledHost_checkout (h : env.buildPath ++ ['/'] <+: env.dirPath) :
    .checkout env.dirPath ∈ (fetchBurrow env settledHost).commands := by
  simp [fetchBurrow, h, settledHost, runCommands]

theorem not_leavesAlone_of_prefix (h : env.buildPath ++ ['/'] <+: env.dirPath) :
    ¬ LeavesAlone env (fetchBurrow env settledHost) := by
  intro halone
  have hdescribe := halone.1 _ (settledHost_checkout h)
  cases hdescribe

theorem prefix_iff (env : Environment) :
    env.buildPath ++ ['/'] <+: env.dirPath ↔ ∃ rest, env.dirPath = env.buildPath ++ '/' :: rest := by
  constructor
  · rintro ⟨rest, hrest⟩
    exact ⟨rest, by rw [← hrest, List.append_assoc, List.singleton_append]⟩
  · rintro ⟨rest, hrest⟩
    exact ⟨rest, by rw [hrest, List.append_assoc, List.singleton_append]⟩

/-- Trees outside BUILD are left alone exactly when BURROW_DIR is not spelled as BUILD, a
slash and more, or when what is spelled there leads from BUILD to strictly below it. -/
theorem touchesInsideOnly_iff (cwd : Dir '.') (env : Environment) :
    TouchesInsideOnly cwd env ↔ ∀ rest, env.dirPath = env.buildPath ++ '/' :: rest →
      StrictlyInside (resolve cwd '/' env.buildPath) ((resolve cwd '/' env.buildPath).walk '/' rest) := by
  constructor
  · intro honly rest hrest
    by_contra houtside
    rw [← resolve_append cwd (buildPath_ne_nil env), ← hrest] at houtside
    exact not_leavesAlone_of_prefix ((prefix_iff env).mpr ⟨rest, hrest⟩) (honly houtside settledHost)
  · intro hinside houtside host
    apply leavesAlone_of_not_prefix
    intro hprefix
    obtain ⟨rest, hrest⟩ := (prefix_iff env).mp hprefix
    apply houtside
    have hbelow := hinside rest hrest
    rwa [← resolve_append cwd (buildPath_ne_nil env), ← hrest] at hbelow

/-- A BURROW_DIR below BUILD that names something and never goes up is strictly inside. -/
theorem strictlyInside_of_names (cwd : Dir '.') {rest : Text}
    (hrest : env.dirPath = env.buildPath ++ '/' :: rest)
    (hup : ∀ c ∈ rest.splitOn '/', c ≠ "..".toList) (hname : ∃ c ∈ rest.splitOn '/', Proper '.' c) :
    StrictlyInside (resolve cwd '/' env.buildPath) (resolve cwd '/' env.dirPath) := by
  rw [hrest, resolve_append cwd (buildPath_ne_nil env)]
  exact walk_strictlyInside _ hup hname

/-- Where BURROW_DIR is not set the script updates what is its own. -/
theorem default_strictlyInside (cwd : Dir '.') (h : env.burrowDir = []) :
    StrictlyInside (resolve cwd '/' env.buildPath) (resolve cwd '/' env.dirPath) := by
  have hdir : env.dirPath = env.buildPath ++ '/' :: "burrow".toList := by
    rw [Environment.dirPath, orDefault, if_pos h]
    rfl
  exact strictlyInside_of_names cwd hdir (by decide) ⟨"burrow".toList, by decide, by decide⟩

def siblingThroughBuild : Environment where
  build := "build".toList
  burrowDir := "build/../../burrow".toList
  burrowRepo := []
  burrowRef := []

def benchDir : Dir '.' := ⟨["src".toList, "burrow-bench".toList], by decide⟩

/-- From /src/burrow-bench it is /src/burrow, and it is checked out over. -/
theorem sibling_touched :
    (resolve benchDir '/' siblingThroughBuild.dirPath).names = ["src".toList, "burrow".toList] ∧
    .checkout siblingThroughBuild.dirPath ∈ (fetchBurrow siblingThroughBuild settledHost).commands ∧
    ¬ ∀ (cwd : Dir '.') (env : Environment), TouchesInsideOnly cwd env := by
  refine ⟨by decide, by decide, fun h => ?_⟩
  exact not_leavesAlone_of_prefix (by decide) (h benchDir siblingThroughBuild (by decide) settledHost)

end BurrowBench.Tools.FetchBurrow
