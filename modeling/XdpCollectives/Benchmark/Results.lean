import XdpCollectives.Benchmark.Number
import Mathlib.Logic.Function.Basic

open Csv

-- The file of the results: how it is written, and how it is read to plot them.
namespace Benchmark

inductive Prog
  | xdp
  | tc
  | naive
  deriving DecidableEq, Repr

def Prog.text : Prog → Text
  | xdp   => ['X', 'D', 'P']
  | tc    => ['T', 'C']
  | naive => ['n', 'a', 'i', 'v', 'e']

structure Combination where
  size : Int
  np   : Int
  prog : Prog
  deriving DecidableEq, Repr

def header (c : Combination) : Text :=
  ['s', '='] ++ str c.size ++ ['_', 'n', 'p', '='] ++ str c.np ++ ['_', 'p', '='] ++ c.prog.text

-- The measurements of a run, in a column for each combination.
abbrev RunData := List (List Double)

-- Columns to rows.
def runRows (runData : RunData) : List (List Value) :=
  let maxRows := (runData.map List.length).foldr max 0
  (List.range maxRows).map fun r => runData.map fun col =>
    match col[r]? with
    | some x => .float x
    | none   => .str []

-- There is an empty row after each run but the last one.
def resultsMatrix (width : Nat) : List RunData → List (List Value)
  | []               => []
  | [runData]        => runRows runData
  | runData :: rest  => runRows runData ++ List.replicate width (.str []) :: resultsMatrix width rest

def writeResults (combinations : List Combination) (runsData : List RunData) : Text :=
  let headers := combinations.map header
  write (headers :: (resultsMatrix headers.length runsData).map fun row => row.map formatCsvValue)

-- A dict from the names of the columns to texts. Only these names are looked up.
abbrev Columns := Text → List Text

def noColumns : Columns := fun _ => []

-- The texts whose median is computed, unless one of them is no number.
def runValues (header : List Text) (currentRun : Columns) : Option Columns :=
  if header.all fun col => (currentRun col).all fun x => x = [] || isFloat x then
    some fun col => (currentRun col).filter (· ≠ [])
  else none

def hasValues (header : List Text) (currentRun : Columns) : Bool :=
  header.any fun col => 0 < (currentRun col).length

structure Parser where
  runsData   : List Columns
  currentRun : Columns

def endRun (header : List Text) (p : Parser) : Option Parser :=
  if hasValues header p.currentRun then
    (runValues header p.currentRun).map fun values => ⟨p.runsData ++ [values], noColumns⟩
  else some p

def appendValue (currentRun : Columns) (col val : Text) : Columns :=
  Function.update currentRun col (currentRun col ++ [strip val])

-- A row with more values than the header has columns is cut off.
def readLine (header : List Text) (p : Parser) (line : Text) : Option Parser :=
  let line := strip line
  if !(split ',' line).any fun v => strip v ≠ [] then endRun header p
  else
    let values := split ',' line
    let values := values ++ List.replicate (header.length - values.length) []
    some { p with currentRun := (header.zip values).foldl (fun run (col, val) => appendValue run col val) p.currentRun }

-- What `plot_median_times` computes medians of: the values of each run, by the name of their column. `none` is a
-- ValueError.
def plotRuns (csvContent : Text) : Option (List Columns) :=
  match split '\n' (strip csvContent) with
  | []            => none
  | first :: rest =>
    let header := (split ',' first).map strip
    do
      let p ← rest.foldlM (readLine header) ⟨[], noColumns⟩
      let p ← endRun header p
      return p.runsData

end Benchmark
