import TreePattern.Plan.Sink
import TreePattern.Text.Version
/-!
Options of compiling: what an index of node texts has already verified, how versions are cleaned,
and whether and where the plan reports what it does.
-/
namespace TreePattern

structure Settings where
  verbose : Bool := false
  /-- An index has verified the literal start of each pattern. -/
  staticIndex : Bool := true
  /-- How many of the first words of each text the index keeps. -/
  indexedWordLimit : UInt64 := 3
  deriving DecidableEq, Repr

structure Options where
  settings : Settings := {}
  sink : Option Sink := none
  policy : VersionPolicy := VersionPolicy.canonical

namespace Options

def ofSettings (settings : Settings) : Options := { settings }

def withVerbose (options : Options) (verbose : Bool) : Options :=
  { options with settings := { options.settings with verbose } }

def withStaticIndex (options : Options) (staticIndex : Bool) : Options :=
  { options with settings := { options.settings with staticIndex } }

def withIndexedWordLimit (options : Options) (indexedWordLimit : UInt64) : Options :=
  { options with settings := { options.settings with indexedWordLimit } }

/-- Reports to `sink`, and reports at all. -/
def withSink (options : Options) (sink : Sink) : Options :=
  { options.withVerbose true with sink := some sink }

def withPolicy (options : Options) (policy : VersionPolicy) : Options := { options with policy }

/-- Where a verbose plan reports: to the log unless another sink is chosen. -/
def activeSink (options : Options) : Option Sink :=
  if options.settings.verbose then some (options.sink.getD .log) else none

end Options

end TreePattern
