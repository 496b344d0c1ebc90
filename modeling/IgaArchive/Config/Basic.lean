import IgaArchive.Text.Numeral

/-!
The configuration: where members go, how they are decoded, and how progress is reported and logged.
-/

namespace IgaArchive

structure LogConfig where
  file : Bytes := []
  maxSizeMB : Int64 := 0
  maxAgeDays : Int64 := 0
  maxBackups : Int64 := 0
  compress : Bool := false
  verbose : Bool := false
  deriving DecidableEq, Repr

structure Config where
  outputDir : Bytes := []
  forceDecrypt : Bool := false
  bufferSize : Int64 := 0
  progress : Bool := false
  logs : LogConfig := {}
  deriving DecidableEq, Repr

namespace Config

def withDefaults (config : Config) : Config :=
  let atLeastOne (value default : Int64) : Int64 := if value ≤ 0 then default else value
  { config with
    outputDir := if config.outputDir = [] then utf8 "." else config.outputDir
    bufferSize := if config.bufferSize = 0 then 4096 else config.bufferSize
    logs := { config.logs with
      maxSizeMB := atLeastOne config.logs.maxSizeMB 25
      maxAgeDays := atLeastOne config.logs.maxAgeDays 7
      maxBackups := atLeastOne config.logs.maxBackups 5 } }

def standard : Config :=
  withDefaults {}

structure Invalid where
  bufferSize : Int64
  deriving DecidableEq, Repr

def Invalid.message (error : Invalid) : Bytes :=
  utf8 "bufferSize " ++ Numeral.signed error.bufferSize.toInt ++
    utf8 ": must be a positive multiple of 256"

def validate (config : Config) : Except Invalid Unit :=
  if config.bufferSize ≤ 0 ∨ config.bufferSize % 256 ≠ 0 then .error ⟨config.bufferSize⟩ else .ok ()

end Config

end IgaArchive
