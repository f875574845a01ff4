import Reflow.Command.Run

/-!
Work on several files at once. A file takes two steps, finding its settings and rewrapping it, and
the steps of one file may fall between those of another in every way. Each step is done on the
machine as the steps before it left it.
-/

namespace Reflow.Command

/-- Work that is under way. Files that are done have left their traces in `work` only. -/
structure Jobs where
  /-- Files that were not begun. -/
  waiting : List Text
  /-- Files that were begun, each with the settings that were found for it. -/
  begun : List (Text × Except Failure Config) := []
  work : Work

namespace Jobs

/-- One step of the work. A file is begun by finding its settings, and later finished by rewrapping
it with these. Any file that waits may be next, and any that was begun. -/
inductive Step (a : Arguments) (base : Config) : Jobs → Jobs → Prop where
  | configure {before after : List Text} {path : Text}
      {begun : List (Text × Except Failure Config)} {work : Work} :
      Step a base { waiting := before ++ path :: after, begun, work }
        { waiting := before ++ after, work,
          begun := (path, fileConfig a base work.host path) :: begun }
  | process {before after : List (Text × Except Failure Config)} {path : Text}
      {found : Except Failure Config} {waiting : List Text} {work : Work} :
      Step a base { waiting, begun := before ++ (path, found) :: after, work }
        { waiting, begun := before ++ after,
          work := work.record a path (rewrapFound a found work.host path) }

/-- No file has been begun. -/
def start (h : Host) (files : List Text) : Jobs := { waiting := files, work := { host := h } }

/-- All files have been rewrapped. Nothing is waiting and nothing is under way. -/
def done (w : Work) : Jobs := { waiting := [], work := w }

end Jobs

end Reflow.Command
