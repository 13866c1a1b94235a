import OpenRar.Format.HeaderRewrite
import OpenRar.Recovery.SyndromeSearch
import OpenRar.Recovery.DamageLocalisation
import OpenRar.Recovery.RepairFrame
import OpenRar.Compress.FilterInverses
import OpenRar.Compress.HuffmanCoding
import OpenRar.Compress.InflateCorrect
import OpenRar.Compress.CompressPlan
import OpenRar.Compress.CdcParallel
import OpenRar.Compress.GrowingWindow
import OpenRar.Compress.CdcPlanner
import OpenRar.Format.HeaderBounds
import OpenRar.Archive.QuickOpenListing
import OpenRar.Archive.FileCopies
import OpenRar.Archive.Collisions
import OpenRar.Archive.ModificationTimes
import OpenRar.Archive.VolumeRoom
import OpenRar.Archive.VolumeRollback
import OpenRar.Archive.Wildcards
import OpenRar.Sandbox.WorkerBroker
import OpenRar.Compress.SolidPacker
