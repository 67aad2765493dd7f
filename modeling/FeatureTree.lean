import FeatureTree.Config.Settings
import FeatureTree.Files.Load
import FeatureTree.Gherkin.Parse
import FeatureTree.Gherkin.Tree
import FeatureTree.Node.Build
import FeatureTree.Node.Equality
import FeatureTree.Node.Render
import FeatureTree.Proofs.Equality.Trees
import FeatureTree.Proofs.Files.Ancestors
import FeatureTree.Proofs.RoundTrip.Built
import FeatureTree.Proofs.RoundTrip.ExampleRows
import FeatureTree.Proofs.RoundTrip.File
import FeatureTree.Proofs.RoundTrip.Part
import FeatureTree.Proofs.Schema.Agreement
import FeatureTree.Proofs.Store.Listing
import FeatureTree.Reading
import FeatureTree.Rose
import FeatureTree.Schema.Basic
import FeatureTree.Store.Reference
import FeatureTree.Store.Rows
import FeatureTree.Toml.Document
import FeatureTree.Proofs.Rose
import FeatureTree.Proofs.Store.Walks
import FeatureTree.Proofs.Schema.Fitting
import FeatureTree.Proofs.Store.Acyclic
import FeatureTree.Proofs.Store.Copies
import FeatureTree.Proofs.Store.Distinct
import FeatureTree.Proofs.Equality.Transitivity
import FeatureTree.Proofs.RoundTrip.Language
import FeatureTree.Proofs.Node.Outcome
import FeatureTree.Proofs.Plain.Arguments
import FeatureTree.Proofs.RoundTrip.DocStrings
import FeatureTree.Proofs.Relayout.Canonical
import FeatureTree.Proofs.Text.DescriptionLines
import FeatureTree.Proofs.RoundTrip.Rows
import FeatureTree.Proofs.RoundTrip.Comments
import FeatureTree.Proofs.Text.Indentation
import FeatureTree.Proofs.Rose.Traversals
import FeatureTree.Proofs.Store.RowLists
import FeatureTree.Proofs.Store.Traversals
import FeatureTree.Proofs.Schema.Absent
import FeatureTree.Proofs.Schema.Complete
import FeatureTree.Proofs.Store.Paths
import FeatureTree.Proofs.Schema.Worded
import FeatureTree.Proofs.Store.Context
import FeatureTree.Proofs.Equality.Contents
import FeatureTree.Store.Stepwise
import FeatureTree.Proofs.Store.MappedRows
import FeatureTree.Proofs.Store.Tabular
import FeatureTree.Proofs.Store.Failures
import FeatureTree.Proofs.Store.RowsByValues
import FeatureTree.Proofs.Gherkin.Order
import FeatureTree.Proofs.Schema.LineOrder
import FeatureTree.Proofs.Config.Memory
import FeatureTree.Proofs.Config.Variables
import FeatureTree.Proofs.Config.Layers
import FeatureTree.Proofs.Schema.FragmentLines
import FeatureTree.Proofs.Layout.Alignment
import FeatureTree.Proofs.Files.TextSettings
