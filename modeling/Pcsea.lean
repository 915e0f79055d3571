import Pcsea.Machine
import Pcsea.Lib.Chain
import Pcsea.Lib.Ring
import Pcsea.Lib.Runs
import Pcsea.ReadyQueueSpec
import Pcsea.ListSpec
import Pcsea.Places
import Pcsea.Invariant
import Pcsea.SchedulerSpec
import Pcsea.TerminationSpec
import Pcsea.ProcessSpec
import Pcsea.WaitFifoSpec
import Pcsea.ExchangeSpec
import Pcsea.Step
import Pcsea.StepSpec
import Pcsea.Partition
import Pcsea.Attente
import Pcsea.Kill
import Pcsea.Pointeurs
import Pcsea.Courant
import Pcsea.Priorite
import Pcsea.Echeance
import Pcsea.Capacite
import Pcsea.Election
import Pcsea.Muet
import Pcsea.Maintien
import Pcsea.Echanges
import Pcsea.Annulation
import Pcsea.Lib.Cycle
import Pcsea.Ronde
import Pcsea.Rondes
import Pcsea.Vidage
import Pcsea.Famille
import Pcsea.Sondage
import Pcsea.Livraison
import Pcsea.Display
import Pcsea.Horloge
import Pcsea.Avance
import Pcsea.FilePrio
import Pcsea.Tour
import Pcsea.Reclassement
import Pcsea.Agenda
import Pcsea.Tampon
import Pcsea.Comptage
import Pcsea.Console
import Pcsea.FileAttente
import Pcsea.Lib.Page
import Pcsea.Terminal
import Pcsea.Hash
import Pcsea.HashSpec
import Pcsea.HashUpdate
import Pcsea.HashRun
import Pcsea.HashCarte
import Pcsea.Lib.RoundRobin
import Pcsea.TourDeRole
import Pcsea.Lib.Numeral
import Pcsea.Lib.Bytes
import Pcsea.Memoire
import Pcsea.Doprnt
import Pcsea.Strtol
import Pcsea.DoprntSpec
import Pcsea.Nombres
import Pcsea.Impression
import Pcsea.Formats
import Pcsea.Lib.Division
import Pcsea.Div64
import Pcsea.Lib.BitField
import Pcsea.Descripteurs
import Pcsea.Exceptions
import Pcsea.Lib.Words
import Pcsea.Pagination
import Pcsea.Debogueur
import Pcsea.Gdb
import Pcsea.GdbSpec
import Pcsea.GdbCommandes
import Pcsea.GdbSession
import Pcsea.GdbSurete
import Pcsea.Chaines
import Pcsea.ChainesSpec
import Pcsea.Copies
import Pcsea.CarteClavier
import Pcsea.ClavierSpec
import Pcsea.Scancodes
import Pcsea.Clavier
import Pcsea.ClavierRun
