import ModelCount.Counter
import ModelCount.Main
import ModelCount.Models
import ModelCount.Proofs.Adjacency
import ModelCount.Proofs.Assignment
import ModelCount.Proofs.Branch
import ModelCount.Proofs.Branching
import ModelCount.Proofs.Budget
import ModelCount.Proofs.Calls
import ModelCount.Proofs.Chains
import ModelCount.Proofs.Component
import ModelCount.Proofs.Connection
import ModelCount.Proofs.Count
import ModelCount.Proofs.Encoding
import ModelCount.Proofs.Entries
import ModelCount.Proofs.Erasing
import ModelCount.Proofs.Exact
import ModelCount.Proofs.Family
import ModelCount.Proofs.Formula
import ModelCount.Proofs.Key
import ModelCount.Proofs.Lineage
import ModelCount.Proofs.Links
import ModelCount.Proofs.Literal
import ModelCount.Proofs.Lookups
import ModelCount.Proofs.Marks
import ModelCount.Proofs.Narrow
import ModelCount.Proofs.Onward
import ModelCount.Proofs.Again
import ModelCount.Proofs.Operations
import ModelCount.Proofs.Order
import ModelCount.Proofs.Outcome
import ModelCount.Proofs.Part
import ModelCount.Proofs.Pieces
import ModelCount.Proofs.Product
import ModelCount.Proofs.Propagate
import ModelCount.Proofs.Reach
import ModelCount.Proofs.Reports
import ModelCount.Proofs.Residual
import ModelCount.Proofs.Rounds
import ModelCount.Proofs.Satisfying
import ModelCount.Proofs.Scratch
import ModelCount.Proofs.Search
import ModelCount.Proofs.Served
import ModelCount.Proofs.Session
import ModelCount.Proofs.Slices
import ModelCount.Proofs.Solve
import ModelCount.Proofs.Split
import ModelCount.Proofs.Sweep
import ModelCount.Proofs.Table
import ModelCount.Proofs.Total
import ModelCount.Proofs.Twins
import ModelCount.Proofs.Upkeep
import ModelCount.Proofs.Valid
import ModelCount.Proofs.Visit
import ModelCount.Proofs.Walk
import ModelCount.Proofs.Answers
import ModelCount.Proofs.Storage
import ModelCount.Proofs.Rollback
import ModelCount.Proofs.Leftover
import ModelCount.Proofs.Nested
import ModelCount.Proofs.Closure
import ModelCount.Proofs.Shares
import ModelCount.Proofs.Twice
import ModelCount.Proofs.Scores
import ModelCount.Proofs.Factors
import ModelCount.Proofs.Layout
import ModelCount.Proofs.Reading
import ModelCount.Proofs.Sections
