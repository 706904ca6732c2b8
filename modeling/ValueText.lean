import ValueText.Failure
import ValueText.Main
import ValueText.Store
import ValueText.Number.Stepwise
import ValueText.Number.StepwiseFloat
import ValueText.Storage.Stepwise
import ValueText.Proofs.IntegerReading
import ValueText.Proofs.RenderedText
import ValueText.Proofs.Rendering
import ValueText.Proofs.SinkConservation
import ValueText.Proofs.PlainValues
import ValueText.Proofs.ShownStore
import ValueText.Proofs.StoreRefinement
import ValueText.Proofs.MissedBounds
import ValueText.Proofs.LineReading
import ValueText.Proofs.FloatSyntax
import ValueText.Proofs.FloatScanning
import ValueText.Proofs.LongestFloat
import ValueText.Proofs.NearestCode
import ValueText.Proofs.FloatRange
import ValueText.Proofs.FloatRoundTrip
import ValueText.Proofs.CanonicalNumeral
import ValueText.Proofs.IntegerRoundTrip
import ValueText.Proofs.UnambiguousText
import ValueText.Proofs.LineRoundTrip
import ValueText.Proofs.ContainerIndependence
import ValueText.Proofs.CompactCopies
import ValueText.Proofs.StepReports
import ValueText.Proofs.SettingsLoading
import ValueText.Proofs.StorageSteps
import ValueText.Proofs.ReachableStorage
import ValueText.Console.Process
import ValueText.Proofs.Utf8RoundTrip
import ValueText.Proofs.OneWriter
import ValueText.Proofs.TextForms
import ValueText.Proofs.PrintedNumbers
import ValueText.Proofs.ProgramRuns
import ValueText.Proofs.SlicePaths
import ValueText.Proofs.ZeroEndedText
import ValueText.Proofs.FixedConversion
import ValueText.Proofs.LeadingSpace
import ValueText.Proofs.ListedValues
