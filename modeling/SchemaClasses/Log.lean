import SchemaClasses.Warning

/-!
# The log of a run

A run tells what happens in messages, one after another: warnings, and notices of what has been
done. A message may quote any text, so it may have several lines. The warnings are the part of the
log that is about the schemas.
-/

namespace SchemaClasses

/-- What has been done. -/
inductive Notice where
  | attached (extension className host : String)
  | resolved (classes : Nat) (schema : String)
  | generated (classes enums : Nat)
  | attachments (count : Nat)
  | skipped (count : Nat)
  deriving DecidableEq, Repr

def Notice.message : Notice → String
  | attached extension className host =>
    "attaching " ++ extension ++ " (" ++ className ++ ") to " ++ host
  | resolved classes schema => "resolved " ++ classes.repr ++ " schemas from " ++ schema
  | generated classes enums =>
    "generated " ++ classes.repr ++ " classes, " ++ enums.repr ++ " enums"
  | attachments count => "attached " ++ count.repr ++ " extensions"
  | skipped count => "skipped " ++ count.repr ++ " schemas without code"

inductive Message where
  | warning (warning : Warning)
  | notice (notice : Notice)

namespace Message

def warning? : Message → Option Warning
  | warning w => some w
  | notice _ => none

def text : Message → String
  | warning w => "warning: " ++ w.message ++ "\n"
  | notice n => "info: " ++ n.message ++ "\n"

end Message

def warningsOf (log : List Message) : List Warning := log.filterMap Message.warning?

theorem warningsOf_append (earlier later : List Message) :
    warningsOf (earlier ++ later) = warningsOf earlier ++ warningsOf later :=
  List.filterMap_append

end SchemaClasses
