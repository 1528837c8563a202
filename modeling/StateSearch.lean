import StateSearch.Cost
import StateSearch.Deadline
import StateSearch.Decimal.Reading
import StateSearch.Decimal.Shortest
import StateSearch.Fault
import StateSearch.Files
import StateSearch.InputError
import StateSearch.Node
import StateSearch.NodeText
import StateSearch.Path
import StateSearch.Pool.Basic
import StateSearch.Pool.Frontier
import StateSearch.Pool.Search
import StateSearch.Pool.Shared
import StateSearch.Pool.Slot
import StateSearch.Pool.SlotUsers
import StateSearch.Pool.Task
import StateSearch.Pool.Timetable
import StateSearch.Pool.WorkQueue
import StateSearch.Problem
import StateSearch.Program
import StateSearch.Puzzle.Bridge
import StateSearch.Puzzle.Grid
import StateSearch.Puzzle.People
import StateSearch.Puzzle.Pouring
import StateSearch.Puzzle.Residue
import StateSearch.Puzzle.RoadMap
import StateSearch.Random.Coin
import StateSearch.Random.Keystream
import StateSearch.Replay
import StateSearch.Report
import StateSearch.Scenario
import StateSearch.Search.Arena
import StateSearch.Search.BestFirst
import StateSearch.Search.Deque
import StateSearch.Search.Exhaustive
import StateSearch.Search.OpenList
import StateSearch.SearchError
import StateSearch.Seen
import StateSearch.Settings.CommandLine
import StateSearch.Settings.Config
import StateSearch.Settings.Search
import StateSearch.Settings.Strategy
import StateSearch.Solver
import StateSearch.Stats
import StateSearch.Text.Duration
import StateSearch.Text.Hidden
import StateSearch.Text.Json
import StateSearch.Text.Quoted
import StateSearch.Watch
import StateSearch.Yaml.Document
import StateSearch.Yaml.Layout
import StateSearch.Yaml.Lexer
import StateSearch.Yaml.Node
import StateSearch.Yaml.Reading
import StateSearch.Yaml.Scalar
import StateSearch.Yaml.Source
import StateSearch.Yaml.Syntax
import StateSearch.Yaml.Tag
import StateSearch.Yaml.Token
import StateSearch.Yaml.Value
import StateSearch.Main
import StateSearch.Proofs.Route
import StateSearch.Proofs.Act
import StateSearch.Proofs.Turns
import StateSearch.Proofs.OpenList
import StateSearch.Proofs.BestFirst
import StateSearch.Proofs.Replay
import StateSearch.Proofs.Pool.Frontier
import StateSearch.Proofs.Pool.Steps
import StateSearch.Proofs.Soundness
import StateSearch.Proofs.Pool.Accounts
import StateSearch.Proofs.Pool.Claims
import StateSearch.Proofs.Pool.CostLayers
import StateSearch.Proofs.Pool.Ownership
import StateSearch.Proofs.Pool.Losses
import StateSearch.Proofs.Pool.Termination
import StateSearch.Proofs.Pool.Failures
import StateSearch.Proofs.Pool.History
import StateSearch.Proofs.Pool.Outcomes
import StateSearch.Proofs.Pool.Expansions
import StateSearch.Proofs.Pool.Levels
import StateSearch.Proofs.Pool.Lockstep
import StateSearch.Proofs.Pool.SingleWorker
import StateSearch.Proofs.Pool.Books
import StateSearch.Proofs.Observer
import StateSearch.Proofs.Pool.OneByOne
import StateSearch.Proofs.Pool.SingleAStar
import StateSearch.Proofs.Folding
import StateSearch.Proofs.FoldedSearch
import StateSearch.Proofs.Pool.FoldedAStar
import StateSearch.Proofs.Puzzle.People
import StateSearch.Proofs.Puzzle.Bridge
import StateSearch.Proofs.Deadline
import StateSearch.Proofs.Pool.SlotUsers
import StateSearch.Proofs.Course
import StateSearch.Proofs.Pool.Labour
import StateSearch.Proofs.Pool.Isolation
import StateSearch.Proofs.Pool.Driving
import StateSearch.Proofs.Agreement
import StateSearch.Proofs.Tally
import StateSearch.Proofs.Puzzle.BridgeStates
import StateSearch.Proofs.Puzzle.Pouring
import StateSearch.Proofs.Verdict
import StateSearch.Proofs.Exhaustive.Course
import StateSearch.Proofs.Exhaustive.Levels
import StateSearch.Proofs.Removals
import StateSearch.Proofs.Decision
import StateSearch.Proofs.Puzzle.Measuring
import StateSearch.Proofs.Endings
import StateSearch.Proofs.Balance
import StateSearch.Proofs.Puzzle.Representative
import StateSearch.Proofs.Stopping
import StateSearch.Proofs.Puzzle.Groups
import StateSearch.Proofs.Likeness
import StateSearch.Proofs.Notices
import StateSearch.Proofs.Pool.Notices
import StateSearch.Proofs.CutShort
import StateSearch.Proofs.Faultless
import StateSearch.Proofs.Puzzle.Spills
import StateSearch.Proofs.Puzzle.Shuttle
import StateSearch.Proofs.Pool.Sifting
import StateSearch.Proofs.Pool.FoldedQueue
import StateSearch.Proofs.FoldedDecision
import StateSearch.Proofs.Puzzle.Crossable
import StateSearch.Proofs.Lineage
import StateSearch.Proofs.ClosedList
import StateSearch.Proofs.Pool.Queueing
import StateSearch.Proofs.Pool.Quiet
import StateSearch.Proofs.Pool.Solitude
import StateSearch.Proofs.Sessions
import StateSearch.Proofs.PathChecks
